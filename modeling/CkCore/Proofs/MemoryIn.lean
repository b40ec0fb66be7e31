import CkCore.Model.MemoryStream
import CkCore.Spec.Cursor

namespace CkCore.Proofs.MemoryIn
open Lib MemoryInStream Cursor

/-- The arguments of a call are 32-bit words. -/
def wordArgs : Call → Prop
  | .read count => count < word
  | .end => True
  | .seek distance _ => distance < word

instance : DecidablePred wordArgs
  | .read count => inferInstanceAs (Decidable (count < word))
  | .end => isTrue trivial
  | .seek distance _ => inferInstanceAs (Decidable (distance < word))

/-- Every call answers as the cursor does and leaves pos_ at its position. -/
def follows (self : MemoryInStream) (p : Nat) : List Call → Prop
  | [] => True
  | c :: cs => ∃ self', inStream.call self c = .ok ((callBeyond self.data p c).1, self') ∧
      self'.pos = (callBeyond self.data p c).2 ∧ follows self' (callBeyond self.data p c).2 cs

/-- No call makes a position overflow, and a read starts inside the block. -/
def fits (content : List Byte) (p : Nat) : Call → Prop
  | .read count => p ≤ content.length ∧ p + count < word
  | .end => True
  | .seek distance whence => target p distance whence < word

/-- Each call fits at the position the calls in front of it lead to. -/
def fitting (content : List Byte) (p : Nat) : List Call → Prop
  | [] => True
  | c :: cs => fits content p c ∧ fitting content (callBeyond content p c).2 cs

variable {self : MemoryInStream} {count : Nat}

/-- A read that stays within the words is clipped at the end of the block. -/
theorem read_inside (hsize : self.data.length < word) (hpos : self.pos ≤ self.data.length)
    (hno : self.pos + count < word) :
    self.read count = .ok (⟨(slice self.data self.pos count).length,
      slice self.data self.pos count⟩,
      { self with pos := self.pos + (slice self.data self.pos count).length }) := by
  have hlength := slice_length self.data self.pos count
  have hread : (if addWord self.pos count > self.data.length then
      subWord self.data.length self.pos else count) = (slice self.data self.pos count).length := by
    rw [addWord_eq hno, subWord_eq hsize hpos, hlength]
    split <;> omega
  have hload : load self.data self.pos (slice self.data self.pos count).length =
      .ok (slice self.data self.pos count) := by
    rw [load_ok (by omega)]
    have hprefix : slice self.data self.pos count <+: self.data.drop self.pos :=
      List.take_prefix _ _
    exact congrArg Except.ok <| Eq.symm <| slice_of_prefix hprefix
  have hnext : addWord self.pos (slice self.data self.pos count).length =
      self.pos + (slice self.data self.pos count).length := addWord_eq (by omega)
  unfold MemoryInStream.read
  simp only [hread, hload, hnext, ok_bind, pure_ok]

/-- Any other read copies bytes from outside the block. -/
theorem read_outside (hsize : self.data.length < word) (hpos : self.pos < word)
    (hcount : count < word) (h : ¬ (self.pos ≤ self.data.length ∧ self.pos + count < word)) :
    self.read count = .error .outOfBounds := by
  obtain ⟨toRead, hread, hout⟩ : ∃ toRead, (if addWord self.pos count > self.data.length then
      subWord self.data.length self.pos else count) = toRead ∧
      self.data.length < self.pos + toRead := by
    refine ⟨_, rfl, ?_⟩
    by_cases hwrap : self.pos + count < word
    · -- The position is behind the block: the difference to its size wraps.
      have hbehind : self.data.length < self.pos := by omega
      have hless : subWord self.data.length self.pos = self.data.length + word - self.pos :=
        Nat.mod_eq_of_lt (by omega)
      rw [addWord_eq hwrap, if_pos (by omega), hless]
      omega
    · -- The sum wraps: the count is taken as it is, or the difference wraps.
      rw [addWord_wrap hpos hcount (by omega)]
      split
      · have hless : subWord self.data.length self.pos = self.data.length + word - self.pos :=
          Nat.mod_eq_of_lt (by omega)
        rw [hless]
        omega
      · omega
  have hload : load self.data self.pos toRead = .error .outOfBounds := if_neg (by omega)
  unfold MemoryInStream.read
  simp only [hread, hload]
  rfl

/-- A seek reaches its target just when the target is a 32-bit word. -/
theorem seek_reaches (self : MemoryInStream) (distance : Nat) (whence : StreamWhence) :
    (self.seek distance whence).1 = true ∧
      (self.seek distance whence).2.data = self.data ∧
      ((self.seek distance whence).2.pos = target self.pos distance whence ↔
        target self.pos distance whence < word) := by
  have hmod : ∀ n, n % word = n ↔ n < word := fun n =>
    ⟨fun h => h ▸ Nat.mod_lt n (by decide), Nat.mod_eq_of_lt⟩
  cases whence with
  | current => exact ⟨rfl, rfl, hmod _⟩
  | begin =>
    refine ⟨rfl, rfl, ?_⟩
    have h := hmod (0 + distance)
    rw [Nat.zero_add] at h
    simpa [seek, target, addWord] using h

theorem call_data {c : Call} {a : Answer} {self' : MemoryInStream}
    (h : inStream.call self c = .ok (a, self')) : self'.data = self.data := by
  cases c with
  | read count =>
    obtain ⟨⟨r, t⟩, hread, hcall⟩ := bind_ok h
    obtain ⟨bytes, _, hread⟩ := bind_ok hread
    cases hread
    cases hcall
    rfl
  | «end» =>
    cases h
    rfl
  | seek distance whence =>
    cases h
    exact (seek_reaches self distance whence).2.1

/-- One call answers as the cursor does and leaves pos_ at its position just
when it fits. -/
theorem call_follows (hsize : self.data.length < word) (hpos : self.pos < word) {c : Call}
    (hc : wordArgs c) :
    (∃ self', inStream.call self c = .ok ((callBeyond self.data self.pos c).1, self') ∧
      self'.pos = (callBeyond self.data self.pos c).2) ↔ fits self.data self.pos c := by
  cases c with
  | read count =>
    by_cases hfit : fits self.data self.pos (.read count)
    · have hread : inStream.read self count = _ := read_inside hsize hfit.1 hfit.2
      refine iff_of_true ⟨{ self with
        pos := self.pos + (slice self.data self.pos count).length }, ?_, rfl⟩ hfit
      simp only [InStream.call, hread, ok_bind]
      rfl
    · have hread : inStream.read self count = _ := read_outside hsize hpos hc hfit
      refine iff_of_false ?_ hfit
      rintro ⟨self', hcall, _⟩
      simp only [InStream.call, hread] at hcall
      cases hcall
  | «end» => exact iff_of_true ⟨self, rfl, rfl⟩ trivial
  | seek distance whence =>
    obtain ⟨hret, _, hreach⟩ := seek_reaches self distance whence
    have hcall : inStream.call self (.seek distance whence) =
        .ok (.flag true, (self.seek distance whence).2) := rfl
    refine Iff.trans ?_ hreach
    constructor
    · rintro ⟨self', h, htarget⟩
      rw [hcall] at h
      cases h
      exact htarget
    · intro h
      exact ⟨_, hcall, h⟩

/-- The position of the cursor stays a word while the calls fit. -/
theorem fits_next {content : List Byte} {p : Nat} {c : Call} (hp : p < word)
    (h : fits content p c) : (callBeyond content p c).2 < word := by
  cases c with
  | read count =>
    have hlength := slice_length content p count
    have hno : p + count < word := h.2
    show p + (slice content p count).length < word
    omega
  | «end» => exact hp
  | seek distance whence => exact h

theorem follows_fitting {cs : List Call} (hsize : self.data.length < word)
    (hpos : self.pos < word) (hcs : ∀ c ∈ cs, wordArgs c) :
    follows self self.pos cs ↔ fitting self.data self.pos cs := by
  induction cs generalizing self with
  | nil => exact Iff.rfl
  | cons c cs ih =>
    have hstep := call_follows hsize hpos (hcs c List.mem_cons_self)
    have hrest : ∀ c ∈ cs, wordArgs c := fun d hd => hcs d (List.mem_cons_of_mem c hd)
    constructor
    · rintro ⟨self', hcall, hnext, htail⟩
      have hfit := hstep.mp ⟨self', hcall, hnext⟩
      have hdata := call_data hcall
      have hword := fits_next hpos hfit
      rw [← hnext] at hword htail
      refine ⟨hfit, ?_⟩
      rw [← hnext, ← hdata]
      exact (ih (hdata ▸ hsize) hword hrest).mp htail
    · rintro ⟨hfit, htail⟩
      obtain ⟨self', hcall, hnext⟩ := hstep.mpr hfit
      have hdata := call_data hcall
      have hword := fits_next hpos hfit
      rw [← hnext, ← hdata] at htail
      rw [← hnext] at hword
      refine ⟨self', hcall, hnext, ?_⟩
      rw [← hnext]
      exact (ih (hdata ▸ hsize) hword hrest).mpr htail

/-- Every call of a sequence is answered as by a cursor just when no call makes
a position overflow and no read starts behind the end. -/
theorem memory_in_follows_iff {data : List Byte} {cs : List Call} (hsize : data.length < word)
    (hcs : ∀ c ∈ cs, wordArgs c) : follows (init data) 0 cs ↔ fitting data 0 cs :=
  follows_fitting hsize (show 0 < word by decide) hcs

/-- A seek past the end and a read clipped to nothing at the end itself. -/
theorem memory_in_follows_three :
    follows (init [1, 2, 3]) 0 [.read 2, .seek 5 .current, .end, .seek 3 .begin, .read 4] ↔
      fitting [1, 2, 3] 0 [.read 2, .seek 5 .current, .end, .seek 3 .begin, .read 4] :=
  memory_in_follows_iff (by decide) (by decide)

/-- A read behind the end copies bytes from outside the block. -/
theorem read_behind_end : ¬ follows (init [1, 2, 3]) 0 [.seek 4 .current, .read 1] ∧
    (MemoryInStream.mk [1, 2, 3] 4).read 1 = .error .outOfBounds := by
  have hread : (MemoryInStream.mk [1, 2, 3] 4).read 1 = .error .outOfBounds :=
    read_outside (by decide) (by decide) (by decide) (by decide)
  refine ⟨?_, hread⟩
  rintro ⟨s, hseek, _, s', hcall, _⟩
  cases hseek
  obtain ⟨_, hr, _⟩ := bind_ok hcall
  cases hr.symm.trans hread

end CkCore.Proofs.MemoryIn
