import CkCore.Proofs.FileStream
import CkCore.Proofs.TowerCopy

namespace CkCore.Proofs.FileCopy
open Lib Cursor

section
variable {content : List Byte} {s s' : FileOutStream}

instance (f : File) (calls : OpenCalls) : Decidable (FileStream.Fresh f calls) :=
  inferInstanceAs (Decidable (_ ∧ _ ∧ _))

/-- What a call adds to the bytes the handles of the stream have taken, the list
of the newest handle in front. -/
def note (taken : List (List Byte)) (x : FileOutStream × FileOutCall) : List (List Byte) :=
  match x.2, taken with
  | .open calls, taken => if FileStream.Fresh x.1.file calls then [] :: taken else taken
  | .write data (some n), new :: older =>
    if x.1.file.fileHandle = none then new :: older else (new ++ data.take n) :: older
  | _, taken => taken

/-- The bytes each handle has taken in a run. -/
def sessions (past : List (FileOutStream × FileOutCall)) : List (List Byte) := past.foldl note []

/-- The content with what was written on top of it, each time from the beginning. -/
def onto (content : List Byte) : List (List Byte) → List Byte
  | [] => content
  | new :: older => new ++ (onto content older).drop new.length

/-- The file is what the handles wrote on top of each other, and an open handle
stands behind what it has taken. -/
structure Layered (content : List Byte) (taken : List (List Byte)) (s : FileOutStream) : Prop where
  content : s.content = onto content taken
  offset : ∀ off, s.file.fileHandle = some off →
    ∃ new older, taken = new :: older ∧ off = new.length

/-- Writing behind what has been taken so far leaves one longer layer. -/
theorem overlay_onto (content new data : List Byte) (older : List (List Byte)) :
    FileOutStream.overlay (onto content (new :: older)) new.length data =
      onto content ((new ++ data) :: older) := by
  unfold FileOutStream.overlay onto
  rw [List.take_left, ← List.drop_drop, List.drop_left, List.drop_drop, List.length_append]

theorem Layered.step {taken : List (List Byte)} (h : Layered content taken s) {e : FileOutCall}
    (hs : s.step e = some s') : Layered content (note taken (s, e)) s' := by
  cases e with
  | «open» calls =>
    cases hs
    rcases FileStream.open2_cases s.file calls with ⟨hfresh, hfile⟩ | ⟨hstale, hfile⟩
    · simp only [note, hfresh, ↓reduceIte, FileOutStream.open, hfile]
      refine ⟨by rw [onto]; exact h.content, ?_⟩
      intro off hoff
      cases hoff
      exact ⟨[], taken, rfl, rfl⟩
    · simp only [note, hstale, ↓reduceIte, FileOutStream.open]
      refine ⟨h.content, ?_⟩
      intro off hoff
      rcases hfile with hfile | hfile
      · rw [hfile] at hoff
        exact h.offset off hoff
      · rw [hfile] at hoff
        cases hoff
  | close ok =>
    cases hs
    simp only [note, FileOutStream.close]
    refine ⟨h.content, ?_⟩
    intro off hoff
    apply h.offset off
    unfold File.close at hoff
    split at hoff
    · exact hoff
    · split at hoff
      · cases hoff
      · exact hoff
  | write data result =>
    obtain ⟨⟨_, hresult⟩, hs⟩ := Option.ite_none_right_eq_some.mp hs
    cases hs
    cases hh : s.file.fileHandle with
    | none =>
      have hsame : (s.write data result).2 = s := by simp only [FileOutStream.write, hh]
      have hnote : note taken (s, .write data result) = taken := by
        unfold note
        split <;> simp_all
      rw [hsame, hnote]
      exact h
    | some off =>
      cases result with
      | none =>
        have hsame : (s.write data none).2 = s := by simp only [FileOutStream.write, hh]
        rw [hsame]
        exact h
      | some n =>
        obtain ⟨new, older, rfl, rfl⟩ := h.offset off hh
        have hn := hresult n rfl
        have hwrite : (s.write data (some n)).2.content =
            onto content ((new ++ data.take n) :: older) := by
          simp only [FileOutStream.write, hh, h.content]
          exact overlay_onto content new (data.take n) older
        have hnote : note (new :: older) (s, .write data (some n)) =
            (new ++ data.take n) :: older := by simp [note, hh]
        rw [hnote]
        refine ⟨hwrite, ?_⟩
        intro off hoff
        simp only [FileOutStream.write, hh, Option.some.injEq] at hoff
        refine ⟨_, _, rfl, ?_⟩
        rw [← hoff, List.length_append, List.length_take]
        omega

theorem run_layered {past : List (FileOutStream × FileOutCall)}
    (h : (FileOutStream.system content).Run past s) : Layered content (sessions past) s := by
  induction h with
  | start h =>
    subst h
    refine ⟨rfl, ?_⟩
    intro off hoff
    cases hoff
  | next before hs ih =>
    rw [sessions, List.foldl_append]
    exact ih.step hs

theorem onto_length (content : List Byte) (new : List Byte) (older : List (List Byte)) :
    (onto content (new :: older)).length = max new.length (onto content older).length := by
  rw [onto, List.length_append, List.length_drop]
  omega

end

section
variable {source : List Byte}

/-- A file stream is a cursor, for seeks to where an int reaches. -/
theorem file_stands (source : List Byte) (most : Nat) {s : FileInStream}
    (hbytes : s.file.bytes = source.length)
    (hsize : s.size_ = source.length) (hhandle : s.file.fileHandle = some 0) (hread : s.read_ = 0) :
    InTowers.Stands most FileInStream.largest source (FileInStream.inStream source) s 0 := by
  refine ⟨fun c f => f.file.bytes = source.length ∧ f.size_ = source.length ∧
    f.file.fileHandle = some c.val ∧ f.read_ = (c.val : Int),
    ⟨hbytes, hsize, hhandle, hread⟩, ?_, ?_, ?_⟩
  · rintro c f ⟨_, hs, _, hr⟩
    have hc := c.isLt
    apply Bool.eq_iff_iff.mpr
    simp only [FileInStream.inStream, FileInStream.end, hs, hr, Cursor.inStream, beq_iff_eq,
      decide_eq_true_eq]
    omega
  · rintro c f ⟨hb, hs, hh, hr⟩ n _ a ha
    cases ha
    have hret : ¬ (((slice source c.val n).length : Nat) : Int) = -1 := by omega
    have hslice : (source.drop c.val).take n = slice source c.val n := rfl
    refine ⟨_, by simp only [FileInStream.inStream, FileInStream.read, File.read, hh,
      Option.getD_some, hslice, hret, ↓reduceIte]; rfl, rfl, hb, hs, rfl, ?_⟩
    dsimp only
    omega
  · rintro c f ⟨hb, hs, hh, hr⟩ n hn whence ⟨_, c'⟩ ha
    obtain ⟨-, hreach, rfl, hc⟩ := Cursor.seek_answers ha
    have hint := FileStream.largest_int
    have hgoal := FileStream.target_goal f.file c.val n whence
    have hseek := FileStream.seek2_small hh hgoal (by omega)
    rw [← hc] at hseek
    exact ⟨_, by simp only [FileInStream.inStream, FileInStream.seek, hseek]; rfl, rfl, hb, hs,
      rfl, rfl⟩

/-- An open file takes all bytes, over those it has. -/
theorem file_simulates (old : List Byte) (most total : Nat) :
    OutStream.Simulates most
      (fun l f => f.file.fileHandle = some l.length ∧ f.content = l ++ old.drop l.length)
      (gatherer total) FileOutStream.outStream := by
  apply gatherer_simulated
  rintro l f ⟨hh, hcontent⟩ data _ _
  refine ⟨(f.write data (some data.length)).2, ?_, ?_, ?_⟩
  · simp [FileOutStream.outStream, FileOutStream.write, hh]
  · simp [FileOutStream.write, hh]
  · simp only [FileOutStream.write, hh, hcontent, List.take_length]
    have hlayer := overlay_onto old l data []
    simpa [onto] using hlayer

/-- System calls none of which fails. -/
def allSucceed : OpenCalls := ⟨true, true, true, true, true⟩

/-- Copying one file onto another, through any buffers that are flushed from the
top down: the target gets what was sent and keeps what it had behind that. When
the copy returns true the target is equal to the source if and only if it was no
longer before. -/
theorem file_copy (source old : List Byte) {ins : List Nat} (hw : ∀ n ∈ ins, n < word)
    {outs : List Nat}
    (hfit : OutTower.fitting Copy.bufferSize outs) {π : Type} (progresser : Progresser π) (p : π)
    {fuel : Nat} (hc : source.length < fuel) (hf : word ≤ fuel) :
    ∃ r, Copy.copyProgresser (InTower.inStream (FileInStream.inStream source) fuel ins)
        (OutTower.outStream FileOutStream.outStream fuel outs) progresser fuel
        (InTower.init ((FileInStream.create source.length true).open allSucceed).2 ins)
        (OutTower.init ((FileOutStream.create old).open allSucceed).2 outs) p = .ok r ∧
      (r.ret = false → ∃ q, progresser.cancelled q = (true, r.progress)) ∧
      ∃ part, part <+: source ∧ (r.ret = true → part = source) ∧
        ∃ T, OutTower.flushAll FileOutStream.outStream fuel outs r.sink = .ok T ∧
          (OutTower.base outs T).content = part ++ old.drop part.length ∧
          (r.ret = true →
            ((OutTower.base outs T).content = source ↔ old.length ≤ source.length)) := by
  have hsmall : ∀ n ∈ ins, bufferOf n < word := by
    intro n hn
    have := hw n hn
    have hdefault : 8192 < word := by decide
    unfold bufferOf
    split <;> omega
  have hopen := file_stands source word
    (s := ((FileInStream.create source.length true).open allSucceed).2) rfl rfl rfl rfl
  have htower := hopen.tower hc (fun n hn => Nat.le_of_lt (hsmall n hn)) hsmall
  have hsim := file_simulates old word source.length
  have hinit := OutTowers.init_holds (R := fun l (f : FileOutStream) =>
    f.file.fileHandle = some l.length ∧ f.content = l ++ old.drop l.length) (l := [])
    (t := ((FileOutStream.create old).open allSucceed).2) ⟨rfl, rfl⟩ (OutTowers.fitting_word hfit)
  obtain ⟨r, hrun, hcancel, part, hpart, hwhole, T, hflush, _, hcontent⟩ :=
    TowerCopy.stands_copied htower (by decide) hsim hfit hinit
      (Nat.le_of_eq (Nat.zero_add _)) hc hf progresser p
  rw [List.nil_append] at hcontent
  refine ⟨r, hrun, hcancel, part, hpart, hwhole, T, hflush, hcontent, ?_⟩
  intro hret
  rw [hcontent, hwhole hret, List.append_right_eq_self, List.drop_eq_nil_iff]

/-- A copy of two bytes onto a file of three. -/
theorem file_copy_shorter :
    ∃ r, Copy.copyProgresser (InTower.inStream (FileInStream.inStream [1, 2]) word [2])
        (OutTower.outStream FileOutStream.outStream word []) Progresser.none word
        (InTower.init ((FileInStream.create 2 true).open allSucceed).2 [2])
        (OutTower.init ((FileOutStream.create [7, 8, 9]).open allSucceed).2 []) () = .ok r ∧
      (r.ret = true → (OutTower.base [] r.sink).content ≠ [1, 2]) := by
  obtain ⟨r, hrun, _, part, _, _, T, hflush, _, hequal⟩ :=
    @file_copy [1, 2] [7, 8, 9] [2] (by decide) [] trivial Unit Progresser.none () word
      (by decide) (Nat.le_refl _)
  cases hflush
  refine ⟨r, hrun, ?_⟩
  intro hret h
  have := (hequal hret).mp h
  simp at this

end

end CkCore.Proofs.FileCopy
