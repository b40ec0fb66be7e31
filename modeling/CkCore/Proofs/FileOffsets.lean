import CkCore.Proofs.FileStream

namespace CkCore.Proofs.FileOffsets
open Lib CkCore.FileInStream CkCore.Proofs.FileStream

/-- size2 gives the size of the file, as it does for the path of a closed one,
tell2 the offset, and the file stays where it is. -/
structure Measured (f : File) (off : Nat) : Prop where
  size : ∀ stat, f.size2 stat = (some (f.bytes : Int), f)
  path : ∀ stat, (f.size2 stat).1 = (({ f with fileHandle := none } : File).size2 true).1
  offset : f.fileHandle = some off
  tell : f.tell2 = some (off : Int)

/-- seek2 returns what lseek does, and throws just when that fails. -/
structure Located (f : File) (distance : Int) (whence : FileWhence) : Prop where
  returns : ∀ r f', f.lseek distance whence = (r, f') → r ≠ -1 →
    f.seek2 distance whence = (some r, f')
  throws : (f.seek2 distance whence).1 = none ↔ (f.lseek distance whence).1 = -1

/-- Where lseek succeeds the stream has the new offset in read_. -/
def Stored (s : FileInStream) (distance : Nat) (whence : StreamWhence) : Prop :=
  ∀ r f', s.file.lseek distance (fileWhence whence) = (r, f') → r ≠ -1 →
    s.seek distance whence = (true, { s with file := f', read_ := r })

/-- lseek fails, or leads to an offset that an int holds. -/
def passes (goal : Int) : Prop := goal < intLimit ∨ File.offLimit ≤ goal

section
variable {f : File} {off : Nat} {distance : Int} {whence : FileWhence}

theorem lseek_cases (hf : f.fileHandle = some off) (distance : Int) (whence : FileWhence) :
    (¬ (0 ≤ f.target off distance whence ∧ f.target off distance whence < File.offLimit) ∧
      f.lseek distance whence = (-1, f)) ∨
    ∃ goal : Nat, f.target off distance whence = goal ∧ (goal : Int) < File.offLimit ∧
      f.lseek distance whence = ((goal : Int), { f with fileHandle := some goal }) := by
  by_cases hin : 0 ≤ f.target off distance whence ∧ f.target off distance whence < File.offLimit
  · right
    obtain ⟨goal, hgoal⟩ := Int.eq_ofNat_of_zero_le hin.1
    have hlimit : (goal : Int) < File.offLimit := hgoal ▸ hin.2
    exact ⟨goal, hgoal, hlimit, lseek_open hf hgoal hlimit⟩
  · left
    refine ⟨hin, ?_⟩
    simp only [File.lseek, hf, hin, ↓reduceIte]

/-- A seek that fails throws. -/
theorem seek2_fails (hf : f.fileHandle = some off)
    (hfail : f.lseek distance whence = (-1, f)) : f.seek2 distance whence = (none, f) := by
  have hopen : ¬ f.fileHandle = none := by simp [hf]
  have hint : File.toInt (-1) = -1 := by decide
  simp only [File.seek2, hopen, ↓reduceIte, hfail, hint]

/-- Behind what an int holds seek2 does not give the offset. -/
theorem seek2_far (hf : f.fileHandle = some off) {goal : Nat}
    (hg : f.target off distance whence = goal) (hlimit : (goal : Int) < File.offLimit)
    (hfar : ¬ (goal : Int) < intLimit) :
    f.seek2 distance whence ≠ (some (goal : Int), { f with fileHandle := some goal }) := by
  have hlt := toInt_lt goal
  rw [seek2_open hf hg hlimit]
  by_cases hret : File.toInt goal = -1
  · rw [if_pos hret]
    simp
  · rw [if_neg hret]
    intro hsame
    simp only [Prod.mk.injEq, Option.some.injEq, and_true] at hsame
    omega

theorem passes_iff {goal : Nat} (hlimit : (goal : Int) < File.offLimit) :
    passes goal ↔ goal < intLimit := by
  unfold passes
  omega

/-- Where lseek fails there is nothing to say of an offset. -/
theorem passes_out (f : File) (off : Nat) (distance : Int) (whence : FileWhence)
    (hout : ¬ (0 ≤ f.target off distance whence ∧ f.target off distance whence < File.offLimit)) :
    passes (f.target off distance whence) := by
  have hint := int_offset
  unfold passes
  omega

theorem located_iff (hf : f.fileHandle = some off) (distance : Int) (whence : FileWhence) :
    Located f distance whence ↔ passes (f.target off distance whence) := by
  rcases lseek_cases hf distance whence with ⟨hout, hfail⟩ | ⟨goal, hgoal, hlimit, hseek⟩
  · have hthrow := seek2_fails hf hfail
    refine iff_of_true ⟨?_, ?_⟩ (passes_out f off distance whence hout)
    · intro r f' hr hne
      rw [hfail] at hr
      cases hr
      exact absurd rfl hne
    · rw [hthrow, hfail]
      exact iff_of_true rfl rfl
  · have hret : (goal : Int) ≠ -1 := by omega
    rw [hgoal, passes_iff hlimit]
    constructor
    · intro h
      apply Decidable.by_contra
      intro hfar
      exact seek2_far hf hgoal hlimit (by omega) (h.returns _ _ hseek hret)
    · intro hsmall
      have hreturn := seek2_small hf hgoal hsmall
      refine ⟨?_, ?_⟩
      · intro r f' hr _
        rw [hseek] at hr
        cases hr
        exact hreturn
      · rw [hreturn, hseek]
        exact iff_of_false (by simp) hret

theorem stored_iff {s : FileInStream} (hs : s.file.fileHandle = some off) (distance : Nat)
    (whence : StreamWhence) :
    Stored s distance whence ↔ passes (s.file.target off distance (fileWhence whence)) := by
  rcases lseek_cases hs distance (fileWhence whence) with
    ⟨hout, hfail⟩ | ⟨goal, hgoal, hlimit, hseek⟩
  · refine iff_of_true ?_ (passes_out s.file off distance (fileWhence whence) hout)
    intro r f' hr hne
    rw [hfail] at hr
    cases hr
    exact absurd rfl hne
  · have hret : (goal : Int) ≠ -1 := by omega
    rw [hgoal, passes_iff hlimit]
    constructor
    · intro h
      apply Decidable.by_contra
      intro hfar
      have hstored := h _ _ hseek hret
      have hlt := toInt_lt goal
      rw [FileInStream.seek, seek2_open hs hgoal hlimit] at hstored
      by_cases hthrow : File.toInt goal = -1
      · rw [if_pos hthrow] at hstored
        cases hstored
      · rw [if_neg hthrow] at hstored
        simp only [Prod.mk.injEq, FileInStream.mk.injEq, true_and] at hstored
        omega
    · intro hsmall r f' hr _
      rw [hseek] at hr
      cases hr
      rw [FileInStream.seek, seek2_small hs hgoal hsmall]

end

/-- An open file is measured rightly, and left where it is, just when it is not
at the offset that tell2 takes for an error. -/
theorem measured_iff {bytes off : Nat} (hbytes : bytes < intLimit) (hoff : off < intLimit) :
    Measured ⟨bytes, some off⟩ off ↔ off ≠ 1 := by
  have htell : File.tell2 ⟨bytes, some off⟩ = if off = 1 then none else some (off : Int) :=
    tell2_small rfl hoff
  constructor
  · rintro h rfl
    have hvalue := h.tell
    rw [htell] at hvalue
    cases hvalue
  · intro hone
    rw [if_neg hone] at htell
    have hgoal : File.target ⟨bytes, some off⟩ off 0 .end = (bytes : Int) := Int.add_zero _
    have hend := seek2_small (f := ⟨bytes, some off⟩) rfl hgoal hbytes
    have hback : File.seek2 ⟨bytes, some bytes⟩ off .begin =
        (some (off : Int), ⟨bytes, some off⟩) := seek2_small rfl rfl hoff
    have hsize : ∀ stat, File.size2 ⟨bytes, some off⟩ stat =
        (some (bytes : Int), ⟨bytes, some off⟩) := size2_steps (by simp) htell hend hback
    refine ⟨hsize, ?_, rfl, htell⟩
    intro stat
    rw [hsize stat]
    rfl

/-- Three bytes into a file of five. -/
theorem measured_iff_three : Measured ⟨5, some 3⟩ 3 :=
  (measured_iff (show 5 < intLimit by decide) (show 3 < intLimit by decide)).mpr (by decide)

/-- Behind the first byte of a file of five neither answers. -/
theorem offset_one_throws : File.tell2 ⟨5, some 1⟩ = none ∧
    File.size2 ⟨5, some 1⟩ true = (none, ⟨5, some 1⟩) ∧ ¬ Measured ⟨5, some 1⟩ 1 := by
  refine ⟨rfl, rfl, ?_⟩
  intro h
  have htell := h.tell
  cases htell

/-- Wherever a file is open seek2 gives the offset, throws only for a failure
and tells a stream on it where it is, just when lseek fails or leads to an
offset that an int holds. -/
theorem seek_exact_iff (bytes off : Nat) :
    (∀ distance whence, Located ⟨bytes, some off⟩ distance whence ↔
      passes (File.target ⟨bytes, some off⟩ off distance whence)) ∧
    ∀ size read distance whence, Stored ⟨⟨bytes, some off⟩, size, read⟩ distance whence ↔
      passes (File.target ⟨bytes, some off⟩ off distance (fileWhence whence)) :=
  ⟨located_iff rfl, fun _ _ => stored_iff rfl⟩

/-- Behind 2^31 bytes seek2 returns a negative offset, which the stream stores,
and at 2^32 - 1 it throws although lseek succeeded. -/
theorem far_seek_is_cut :
    File.lseek ⟨0, some 0⟩ 0x80000000 .begin = (0x80000000, ⟨0, some 0x80000000⟩) ∧
    File.seek2 ⟨0, some 0⟩ 0x80000000 .begin = (some (-0x80000000), ⟨0, some 0x80000000⟩) ∧
    (FileInStream.seek ⟨⟨0, some 0⟩, 0, 0⟩ 0x80000000 .begin).2.read_ = -0x80000000 ∧
    File.lseek ⟨0, some 0⟩ 0xffffffff .begin = (0xffffffff, ⟨0, some 0xffffffff⟩) ∧
    File.seek2 ⟨0, some 0⟩ 0xffffffff .begin = (none, ⟨0, some 0xffffffff⟩) ∧
    ¬ Located ⟨0, some 0⟩ 0x80000000 .begin ∧ ¬ Located ⟨0, some 0⟩ 0xffffffff .begin := by
  refine ⟨rfl, rfl, rfl, rfl, rfl, ?_, ?_⟩
  · intro h
    have hreturn := h.returns 0x80000000 ⟨0, some 0x80000000⟩ rfl (by decide)
    cases hreturn
  · intro h
    have hfail := h.throws.mp rfl
    cases hfail

end CkCore.Proofs.FileOffsets
