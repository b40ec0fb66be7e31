import CkCore.Lib.Memory
import CkCore.Model.FileStream
import CkCore.Spec.Cursor

namespace CkCore.Proofs.FileStream
open Lib CkCore.FileInStream Cursor

/-- Offsets that an int holds. -/
def intLimit : Nat := 0x80000000

/-- With an open handle the count of bytes read is the offset, and the stream is
at its end when the offset is at or behind its size. -/
def Synced (s : FileInStream) : Prop :=
  ∀ off, s.file.fileHandle = some off →
    s.read_ = off ∧ (FileInStream.end s = true ↔ s.size_ ≤ off)

/-- The open leaves a handle that has just been opened. -/
def Fresh (f : File) (calls : OpenCalls) : Prop :=
  (f.fileHandle ≠ none → calls.closed = true) ∧ calls.opened = true ∧
    (calls.locked = true ∨ calls.closedAgain = false)

/-- A handle is opened anew only where nothing has been read since, and no seek
leaves the offsets that an int holds. -/
def meets (s : FileInStream) : FileCall → Prop
  | .open calls => Fresh s.file calls → s.read_ = 0
  | .seek distance whence =>
    ∀ off, s.file.fileHandle = some off → target off distance whence < intLimit
  | .close _ | .read _ _ => True

/-- What synced states keep besides: the offset fits an int. -/
structure Small (s : FileInStream) : Prop where
  bytes : s.file.bytes ≤ largest
  offset : ∀ off, s.file.fileHandle = some off → s.read_ = off ∧ off < intLimit

theorem synced_iff {s : FileInStream} :
    Synced s ↔ ∀ off, s.file.fileHandle = some off → s.read_ = off := by
  constructor
  · intro h off hoff
    exact (h off hoff).1
  · intro h off hoff
    have hread := h off hoff
    refine ⟨hread, ?_⟩
    unfold FileInStream.end
    rw [hread, decide_eq_true_eq]

theorem Small.synced {s : FileInStream} (h : Small s) : Synced s :=
  synced_iff.mpr fun off hoff => (h.offset off hoff).1

section
variable {f : File} {off : Nat}

theorem toInt_small {x : Int} (h0 : 0 ≤ x) (h : x < intLimit) : File.toInt x = x := by
  have hlimit : (intLimit : Int) = 0x80000000 := rfl
  have hword : (word : Int) = 0x100000000 := rfl
  rw [File.toInt, Int.bmod_def, hword]
  omega

theorem toInt_lt (x : Int) : File.toInt x < intLimit := by
  have hlimit : (intLimit : Int) = 0x80000000 := rfl
  have hword : (word : Int) = 0x100000000 := rfl
  rw [File.toInt, Int.bmod_def, hword]
  omega

theorem largest_int : largest < intLimit := by decide

theorem int_offset : (intLimit : Int) < File.offLimit := by decide

/-- A seek on an open handle to an offset there can be. -/
theorem lseek_open (hf : f.fileHandle = some off) {distance : Int} {whence : FileWhence}
    {goal : Nat} (hg : f.target off distance whence = goal)
    (hlimit : (goal : Int) < File.offLimit) :
    f.lseek distance whence = ((goal : Int), { f with fileHandle := some goal }) := by
  have h0 : (0 : Int) ≤ goal := Int.natCast_nonneg goal
  simp only [File.lseek, hf, hg]
  rw [if_pos ⟨h0, hlimit⟩]
  rfl

/-- seek2 on an open handle: the offset moves, and the caller gets what is left
of it in an int. -/
theorem seek2_open (hf : f.fileHandle = some off) {distance : Int} {whence : FileWhence}
    {goal : Nat} (hg : f.target off distance whence = goal)
    (hlimit : (goal : Int) < File.offLimit) :
    f.seek2 distance whence = (if File.toInt goal = -1 then none else some (File.toInt goal),
      { f with fileHandle := some goal }) := by
  have hopen : ¬ f.fileHandle = none := by simp [hf]
  simp only [File.seek2, hopen, ↓reduceIte, lseek_open hf hg hlimit]

theorem seek2_small (hf : f.fileHandle = some off) {distance : Int} {whence : FileWhence}
    {goal : Nat} (hg : f.target off distance whence = goal) (hsmall : goal < intLimit) :
    f.seek2 distance whence = (some (goal : Int), { f with fileHandle := some goal }) := by
  have hlimit := int_offset
  have hint : File.toInt goal = goal := toInt_small (Int.natCast_nonneg goal) (by omega)
  have hret : ¬ (goal : Int) = -1 := by omega
  rw [seek2_open hf hg (by omega), hint, if_neg hret]

theorem tell2_small (hf : f.fileHandle = some off) (hsmall : off < intLimit) :
    f.tell2 = if off = 1 then none else some (off : Int) := by
  have hlimit := int_offset
  have hgoal : f.target off 0 .current = off := Int.add_zero _
  have hint : File.toInt off = off := toInt_small (Int.natCast_nonneg off) (by omega)
  have hopen : ¬ f.fileHandle = none := by simp [hf]
  simp only [File.tell2, hopen, ↓reduceIte, lseek_open hf hgoal (by omega), hint]
  split <;> split <;> first | rfl | omega

/-- The three steps of size2 on an open handle. -/
theorem size2_steps (hf : f.fileHandle ≠ none) {curPos size pos : Int} {f' f'' : File}
    (htell : f.tell2 = some curPos) (hend : f.seek2 0 .end = (some size, f'))
    (hback : f'.seek2 curPos .begin = (some pos, f'')) (stat : Bool) :
    f.size2 stat = (some size, f'') := by
  simp only [File.size2, hf, ↓reduceIte, htell, hend, hback]

/-- Asking an open file for its size leaves the offset where it was. -/
theorem size2_file (hb : f.bytes ≤ largest) (hf : ∀ off, f.fileHandle = some off → off < intLimit)
    (stat : Bool) : (f.size2 stat).2 = f := by
  cases ho : f.fileHandle with
  | none => simp [File.size2, ho]
  | some off =>
    have hoff := hf off ho
    have hopen : f.fileHandle ≠ none := by simp [ho]
    have hgoal : f.target off 0 .end = f.bytes := Int.add_zero _
    have hend := seek2_small ho hgoal (Nat.lt_of_le_of_lt hb largest_int)
    have hback : ({ f with fileHandle := some f.bytes } : File).seek2 off .begin =
        (some (off : Int), { f with fileHandle := some off }) := seek2_small rfl rfl hoff
    have htell := tell2_small ho hoff
    by_cases hone : off = 1
    · rw [if_pos hone] at htell
      simp [File.size2, ho, htell]
    · rw [if_neg hone] at htell
      rw [size2_steps hopen htell hend hback, ← ho]

theorem open2_cases (f : File) (calls : OpenCalls) :
    (Fresh f calls ∧ (f.open2 calls).2 = { f with fileHandle := some 0 }) ∨
    (¬ Fresh f calls ∧
      ((f.open2 calls).2 = f ∨ (f.open2 calls).2 = { f with fileHandle := none })) := by
  obtain ⟨bytes, fileHandle⟩ := f
  obtain ⟨stat, closed, opened, locked, closedAgain⟩ := calls
  cases fileHandle <;> cases closed <;> cases opened <;> cases locked <;> cases closedAgain <;>
    simp [Fresh, File.open2, File.close]

end

section
variable {s s' : FileInStream}

/-- A stream without a handle is trivially in step. -/
theorem small_closed (hb : s.file.bytes ≤ largest) (hn : s.file.fileHandle = none) : Small s :=
  ⟨hb, fun off hoff => by rw [hn] at hoff; cases hoff⟩

/-- A step after which the stream is in step and its offset small. -/
theorem kept {e : FileCall} (h : Small s') (hm : meets s e) :
    (Synced s' ↔ meets s e) ∧ (Synced s' → Small s') :=
  ⟨iff_of_true h.synced hm, fun _ => h⟩

/-- A new handle is at the offset 0, so the count has to be there too. -/
theorem Small.opens (h : Small s) (calls : OpenCalls) :
    (Synced (s.open calls).2 ↔ meets s (.open calls)) ∧
      (Synced (s.open calls).2 → Small (s.open calls).2) := by
  have hsize := size2_file h.bytes (fun off hoff => (h.offset off hoff).2) calls.stat
  have hopen : (s.open calls).2 = { s with
      file := (s.file.open2 calls).2, size_ := (s.file.size2 calls.stat).1.getD (-1) } := by
    simp only [FileInStream.open, hsize]
  rw [hopen]
  rcases open2_cases s.file calls with ⟨hfresh, hfile⟩ | ⟨hstale, hfile | hfile⟩
  · rw [hfile]
    constructor
    · rw [synced_iff]
      constructor
      · intro hsync _
        exact hsync 0 rfl
      · intro hm off hoff
        cases hoff
        exact hm hfresh
    · intro hsync
      refine ⟨h.bytes, ?_⟩
      intro off hoff
      cases hoff
      exact ⟨synced_iff.mp hsync 0 rfl, by decide⟩
  · rw [hfile]
    exact kept ⟨h.bytes, h.offset⟩ fun hfresh => absurd hfresh hstale
  · rw [hfile]
    exact kept (small_closed h.bytes rfl) fun hfresh => absurd hfresh hstale

theorem Small.closes (h : Small s) (ok : Bool) : Small (s.close ok).2 := by
  unfold FileInStream.close File.close
  cases ho : s.file.fileHandle with
  | none => exact small_closed h.bytes ho
  | some off =>
    cases ok with
    | true => exact small_closed h.bytes rfl
    | false => exact ⟨h.bytes, h.offset⟩

/-- What a read returns moves the offset and the count alike. -/
theorem Small.reads (h : Small s) {count : Nat} {result : Option Nat}
    (hr : s.answers count result) : Small (s.read result).2 := by
  unfold FileInStream.read File.read
  cases ho : s.file.fileHandle with
  | none => exact small_closed h.bytes ho
  | some off =>
    obtain ⟨hread, hoff⟩ := h.offset off ho
    cases result with
    | none => exact ⟨h.bytes, h.offset⟩
    | some n =>
      have hret : ¬ (n : Int) = -1 := by omega
      have hrest := hr.2
      have hb := h.bytes
      have hmax := largest_int
      rw [ho, Option.getD_some] at hrest
      simp only [hret, ↓reduceIte]
      refine ⟨h.bytes, ?_⟩
      intro off' hoff'
      cases hoff'
      dsimp only
      omega

theorem target_goal (f : File) (off distance : Nat) (whence : StreamWhence) :
    f.target off distance (fileWhence whence) = (target off distance whence : Nat) := by
  cases whence <;> rfl

/-- A seek to an offset that fits an int moves the count with it. -/
theorem Small.seeks_small (h : Small s) {off goal distance : Nat} {whence : StreamWhence}
    (ho : s.file.fileHandle = some off)
    (hg : s.file.target off distance (fileWhence whence) = goal) (hsmall : goal < intLimit) :
    Small (s.seek distance whence).2 := by
  have hnext : (s.seek distance whence).2 =
      { s with file := { s.file with fileHandle := some goal }, read_ := goal } := by
    simp only [FileInStream.seek, seek2_small ho hg hsmall]
  rw [hnext]
  refine ⟨h.bytes, ?_⟩
  intro off' hoff'
  cases hoff'
  exact ⟨rfl, hsmall⟩

/-- A seek to one that does not moves the offset alone: the count stays or gets
what is left of it in an int. -/
theorem seek_far {off goal distance : Nat} {whence : StreamWhence}
    (ho : s.file.fileHandle = some off) (hread : s.read_ < intLimit)
    (hg : s.file.target off distance (fileWhence whence) = goal)
    (hlimit : (goal : Int) < File.offLimit) (hfar : ¬ goal < intLimit) :
    ¬ Synced (s.seek distance whence).2 := by
  have hlt := toInt_lt goal
  have hseek := seek2_open ho hg hlimit
  unfold FileInStream.seek
  rw [synced_iff, hseek]
  intro hsync
  by_cases hret : File.toInt goal = -1
  · rw [if_pos hret] at hsync
    have hstays := hsync goal rfl
    dsimp only at hstays
    omega
  · rw [if_neg hret] at hsync
    have hcut := hsync goal rfl
    dsimp only at hcut
    omega

/-- A seek tells the count what an int holds of the new offset. -/
theorem Small.seeks (h : Small s) {distance : Nat} (hd : distance < word) (whence : StreamWhence) :
    (Synced (s.seek distance whence).2 ↔ meets s (.seek distance whence)) ∧
      (Synced (s.seek distance whence).2 → Small (s.seek distance whence).2) := by
  cases ho : s.file.fileHandle with
  | none =>
    have hsame : (s.seek distance whence).2 = s := by
      simp [FileInStream.seek, File.seek2, ho]
    rw [hsame]
    refine kept h ?_
    intro off hoff
    rw [ho] at hoff
    cases hoff
  | some off =>
    obtain ⟨hread, hoff⟩ := h.offset off ho
    have hmeets : meets s (.seek distance whence) ↔ target off distance whence < intLimit := by
      constructor
      · exact fun hm => hm off ho
      · intro hsmall off' hoff'
        rw [ho] at hoff'
        cases hoff'
        exact hsmall
    have hgoal := target_goal s.file off distance whence
    by_cases hsmall : target off distance whence < intLimit
    · exact kept (h.seeks_small ho hgoal hsmall) (hmeets.mpr hsmall)
    · have hlimit : ((intLimit + word : Nat) : Int) < File.offLimit := by decide
      have hnear : target off distance whence < intLimit + word := by
        cases whence <;> simp only [target] <;> omega
      have hlost := seek_far ho (by omega) hgoal (by omega) hsmall
      rw [hmeets]
      exact ⟨iff_of_false hlost hsmall, fun hsync => absurd hsync hlost⟩

theorem Small.step (h : Small s) {e : FileCall} (hs : s.step e = some s') :
    (Synced s' ↔ meets s e) ∧ (Synced s' → Small s') := by
  cases e with
  | «open» calls =>
    cases hs
    exact h.opens calls
  | close ok =>
    cases hs
    exact kept (h.closes ok) trivial
  | read count result =>
    obtain ⟨⟨_, hr⟩, hs⟩ := Option.ite_none_right_eq_some.mp hs
    cases hs
    exact kept (h.reads hr) trivial
  | seek distance whence =>
    obtain ⟨hd, hs⟩ := Option.ite_none_right_eq_some.mp hs
    cases hs
    exact h.seeks hd whence

theorem create_small {bytes : Nat} (hb : bytes ≤ largest) (stat : Bool) :
    Small (create bytes stat) := small_closed hb rfl

theorem create_run (bytes : Nat) (hb : bytes ≤ largest) (stat : Bool) :
    system.Run [] (create bytes stat) := .start ⟨bytes, stat, hb, rfl⟩

/-- All along a run the count of bytes read is the offset just when no handle is
opened over an old count and no seek goes where an int does not reach. -/
theorem read_is_offset_iff {past : List (FileInStream × FileCall)} (h : system.Run past s) :
    ((∀ p ∈ past, Synced p.1) ∧ Synced s) ↔ ∀ p ∈ past, meets p.1 p.2 := by
  refine h.all_iff_with (Q := Small) ?_ (fun _ hsmall => hsmall.synced) ?_
  · rintro s ⟨bytes, stat, hb, rfl⟩
    exact create_small hb stat
  · intro s e s' hsmall hstep
    exact hsmall.step hstep

end

/-- Five bytes, of which three are read before the stream is closed and opened
again. -/
theorem read_is_offset_five :
    ∃ past s, system.Run past s ∧ s.file.fileHandle = some 1 ∧ (∀ p ∈ past, Synced p.1) ∧
      Synced s := by
  have hcalls : ∃ past s, follow step [] (create 5 true)
      [.open ⟨true, true, true, true, true⟩, .read 3 (some 3), .close true,
        .open ⟨true, true, true, true, true⟩, .seek 1 .begin] = some (past, s) ∧
      s.file.fileHandle = some 1 := ⟨_, _, rfl, rfl⟩
  obtain ⟨past, s, hfollow, hoff⟩ := hcalls
  have hrun := (create_run 5 (by decide) true).follow hfollow
  have hmeets : ∀ p ∈ past, meets p.1 p.2 := by
    cases hfollow
    simp only [List.nil_append, List.cons_append, List.forall_mem_cons]
    refine ⟨fun _ => rfl, trivial, trivial, fun _ => rfl, ?_, by simp⟩
    intro off hoff
    cases hoff
    decide
  exact ⟨past, s, hrun, hoff, (read_is_offset_iff hrun).mpr hmeets⟩

/-- Opened again without being closed, the stream still counts the three bytes,
while its new handle is at the beginning. -/
theorem reopened_stream_keeps_count :
    ∃ past s, system.Run past s ∧ s.file.fileHandle = some 0 ∧ s.read_ = 3 ∧ ¬ Synced s := by
  have hcalls : ∃ past s, follow step [] (create 5 true)
      [.open ⟨true, true, true, true, true⟩, .read 3 (some 3),
        .open ⟨true, true, true, true, true⟩] = some (past, s) ∧
      s.file.fileHandle = some 0 ∧ s.read_ = 3 := ⟨_, _, rfl, rfl, rfl⟩
  obtain ⟨past, s, hfollow, hoff, hread⟩ := hcalls
  refine ⟨past, s, (create_run 5 (by decide) true).follow hfollow, hoff, hread, ?_⟩
  intro hsync
  have hzero := (hsync 0 hoff).1
  rw [hread] at hzero
  cases hzero

end CkCore.Proofs.FileStream
