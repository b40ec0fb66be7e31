import CkCore.Model.Path

namespace CkCore
open Lib

/-- The two system calls Directory::create makes; stat gives st_mode when it
returns 0. A name is what c_str() hands over: a path holds no NUL. -/
structure FileSystem (σ : Type) where
  stat : σ → List Byte → Option Nat
  mkdir : σ → List Byte → Nat → Int × σ

namespace Directory
variable {σ : Type}

/-- S_IFDIR. -/
def dirMode : Nat := 0o040000

/-- S_IRUSR | S_IWUSR | S_IXUSR. -/
def userMode : Nat := 0o000700

def exist (fs : FileSystem σ) (files : σ) (dirPath : List Byte) : Bool :=
  match fs.stat files dirPath with
  | none => false
  | some mode => 0 < mode &&& dirMode

/-- The loop of create: the iterator, cur_path and the files. -/
structure Creating (σ : Type) where
  it : PathIterator
  curPath : TString
  files : σ

def createPass (fs : FileSystem σ) (c : Creating σ) :
    Except Fault (Pass (Creating σ) (Bool × σ)) := do
  if ← c.it.differs Path.end then
    let name ← c.it.get
    let name ← name.append ⟨[slash], Path.slash_small⟩
    let curPath ← c.curPath.append name
    if exist fs c.files curPath.chars then
      return .again ⟨c.it.advance, curPath, c.files⟩
    else
      let (res, files) := fs.mkdir c.files curPath.chars userMode
      if res ≠ 0 then return .leave (false, files)
      else return .again ⟨c.it.advance, curPath, files⟩
  else return .leave (true, c.files)

/-- Directory::create(dir_path). -/
def create (fs : FileSystem σ) (dirPath : Path) (fuel : Nat) (files : σ) :
    Except Fault (Bool × σ) :=
  loop (createPass fs) fuel ⟨dirPath.begin, dirPath.rootName, files⟩

end Directory

end CkCore
