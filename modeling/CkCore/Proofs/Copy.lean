import CkCore.Model.Copy
import CkCore.Proofs.OutRuns

namespace CkCore.Proofs.CopyStream
open Lib Copy

section
variable {σ τ π : Type} {src : InStream σ} {out : OutStream τ} {progresser : Progresser π}
  {content : List Byte} {pos : σ → Nat}

/-- All that a pass of copy which does not fail can do: leave at the end of the
source, or pass on what was read. -/
theorem copyPass_cases {c : Copying σ τ π} {p : Pass (Copying σ τ π) (Copied σ τ π)}
    (h : copyPass src out progresser c = .ok p) :
    (∃ r, p = .leave r ∧ (r.ret = true → src.end c.source = true ∧ r.sink = c.sink ∧
      r.source = c.source)) ∨
    ∃ res source buffer data written sink progress, p = .again ⟨source, sink, progress, buffer⟩ ∧
      src.end c.source = false ∧
      src.read c.source bufferSize = .ok (res, source) ∧ res.ret ≠ -1 ∧
      store c.buffer 0 res.data = .ok buffer ∧ load buffer 0 (toWord res.ret) = .ok data ∧
      out.write c.sink data = .ok (written, sink) ∧ written ≠ -1 := by
  unfold copyPass at h
  split at h
  · rename_i hend
    cases h
    exact Or.inl ⟨_, rfl, fun _ => ⟨hend, rfl, rfl⟩⟩
  · rename_i hend
    obtain ⟨cancelled, progress⟩ := progresser.cancelled c.progress
    dsimp only at h
    split at h
    · cases h
      exact Or.inl ⟨_, rfl, fun hr => by cases hr⟩
    · obtain ⟨⟨res, source⟩, hread, h⟩ := bind_ok h
      obtain ⟨buffer, hstore, h⟩ := bind_ok h
      split at h
      · cases h
        exact Or.inl ⟨_, rfl, fun hr => by cases hr⟩
      · rename_i hret
        obtain ⟨data, hload, h⟩ := bind_ok h
        obtain ⟨⟨written, sink⟩, hwrite, h⟩ := bind_ok h
        split at h
        · cases h
          exact Or.inl ⟨_, rfl, fun hr => by cases hr⟩
        · rename_i hwritten
          cases h
          refine Or.inr ⟨res, source, buffer, data, written, sink, _, rfl, ?_, hread, hret,
            hstore, hload, hwrite, hwritten⟩
          simpa using hend

/-- What is handed on after a read that did not fail is the chunk it delivered,
the next bytes of the source. -/
theorem chunk_next (hsrc : Provides src content pos) {s s' : σ} {res : ReadResult}
    {array buffer data : List Byte} (hend : src.end s = false)
    (hread : src.read s bufferSize = .ok (res, s')) (hret : res.ret ≠ -1)
    (hstore : store array 0 res.data = .ok buffer)
    (hload : load buffer 0 (toWord res.ret) = .ok data) :
    res = ⟨data.length, data⟩ ∧ data.length ≤ bufferSize ∧
      data ++ content.drop (pos s') = content.drop (pos s) := by
  have hlt : pos s < content.length := by
    have hle := hsrc.bounded s
    have hne : ¬ pos s = content.length := by
      rw [← hsrc.ended s, hend]
      simp
    omega
  rcases hsrc.read s bufferSize hlt (by decide) with
    ⟨bytes, s₁, hres, _⟩ | ⟨bytes, s₁, hres, hlen, ⟨rest, hrest⟩, hpos⟩
  · rw [hread] at hres
    cases hres
    exact absurd rfl hret
  · rw [hread] at hres
    cases hres
    have hbw : bufferSize < word := by decide
    have hdata : data = bytes := by
      dsimp only at hload hstore
      rw [toWord_nat (by omega)] at hload
      have ht := store_take hstore
      obtain ⟨_, rfl⟩ := load_inside hload
      simpa using ht
    subst hdata
    refine ⟨rfl, hlen, ?_⟩
    rw [hpos, ← List.drop_drop, ← hrest, List.drop_left]

/-- A copy that returned true went through all chunks of the source, and every
one of them was written without a failure. -/
theorem copy_sends (hsrc : Provides src content pos) {fuel : Nat} {c : Copying σ τ π}
    (hb : c.buffer.length = bufferSize) {r : Copied σ τ π}
    (h : loop (copyPass src out progresser) fuel c = .ok r) (hr : r.ret = true) :
    ∃ chunks, src.Chunks bufferSize c.source chunks ∧
      chunks.flatten = content.drop (pos c.source) ∧
      (∀ chunk ∈ chunks, chunk.length ≤ bufferSize) ∧ out.Sent c.sink chunks r.sink := by
  induction fuel generalizing c with
  | zero => cases h
  | succ fuel ih =>
    obtain ⟨m, hm, hl | ⟨c', hpass, hl⟩⟩ := loop_ok h
    · rcases copyPass_cases hl with ⟨r', he, hdone⟩ | ⟨_, _, _, _, _, _, _, he, _⟩
      · cases he
        obtain ⟨hend, hsink, _⟩ := hdone hr
        refine ⟨[], .done hend, ?_, by simp, hsink ▸ .none _⟩
        rw [(hsrc.ended c.source).mp hend, List.drop_length]
        rfl
      · cases he
    · rcases copyPass_cases hpass with ⟨_, he, _⟩ |
        ⟨res, source, buffer, data, written, sink, progress, he, hend, hread, hret, hstore, hload,
          hwrite, hwritten⟩
      · cases he
      · cases he
        cases hm
        obtain ⟨rfl, hlen, hnext⟩ := chunk_next hsrc hend hread hret hstore hload
        obtain ⟨chunks, hchunks, hflat, hsmall, hsent⟩ :=
          ih (c := ⟨source, sink, progress, buffer⟩) ((store_length hstore).trans hb) hl
        refine ⟨data :: chunks, .chunk hend hread hchunks, ?_, ?_, .piece hwrite hwritten hsent⟩
        · rw [List.flatten_cons, hflat]
          exact hnext
        · intro chunk hm
          rcases List.mem_cons.mp hm with rfl | hm
          · exact hlen
          · exact hsmall chunk hm

theorem copy_consumed (hsrc : Provides src content pos) {consumed : τ → List Byte}
    (ho : Consumes out consumed) {fuel : Nat} {s : σ} {t : τ} {p : π} {c : Copied σ τ π}
    (h : copyProgresser src out progresser fuel s t p = .ok c) (hret : c.ret = true) :
    consumed c.sink = consumed t ++ content.drop (pos s) ↔
      ∀ chunks, src.Chunks bufferSize s chunks → out.takes t chunks := by
  obtain ⟨chunks, hchunks, hflat, _, hsent⟩ := copy_sends hsrc List.length_replicate h hret
  obtain ⟨taken, hconsumed, hall, hshort⟩ := hsent.consumed ho
  dsimp only at hchunks hflat hconsumed hall hshort
  rw [hconsumed, List.append_cancel_left_eq, ← hflat]
  constructor
  · intro heq chunks' hchunks'
    rw [← hchunks.unique hchunks']
    apply Classical.byContradiction
    intro hn
    have hlt := hshort hn
    rw [heq] at hlt
    exact absurd hlt (Nat.lt_irrefl _)
  · intro htakes
    exact hall (htakes chunks hchunks)

/-- A copy that returned true over a sink which may write short is complete
exactly when the sink takes each chunk of the source in full; with and without
progress. -/
theorem copy_complete_iff (hsrc : Provides src content pos) {consumed : τ → List Byte}
    (ho : Consumes out consumed) (progresser : Progresser π) (fuel : Nat) (s : σ) (t : τ) (p : π) :
    (∀ c, copy src out fuel s t = .ok c → c.ret = true →
      (consumed c.sink = consumed t ++ content.drop (pos s) ↔
        ∀ chunks, src.Chunks bufferSize s chunks → out.takes t chunks)) ∧
    ∀ c, copyProgresser src out progresser fuel s t p = .ok c → c.ret = true →
      (consumed c.sink = consumed t ++ content.drop (pos s) ↔
        ∀ chunks, src.Chunks bufferSize s chunks → out.takes t chunks) :=
  ⟨fun _ h hret => copy_consumed hsrc ho h hret, fun _ h hret => copy_consumed hsrc ho h hret⟩

end

section
open BufferedOutStream BufferedOut
variable {σ τ : Type} {out : OutStream τ} {received : τ → List Byte}

/-- Pushing pieces through a buffered stream without a failed call: either the
sink accepts all blocks due and nothing is missing, or it refuses one and the
sink and the buffer together end up short for good. -/
theorem sent_through_buffer (ho : AllOrNothing out received) {fuel : Nat}
    {b b' : BufferedOutStream τ} {pieces : List (List Byte)}
    (h : (outStream out fuel).Sent b pieces b') (hb : Fits b)
    (hsmall : ∀ piece ∈ pieces, piece.length < word) :
    Fits b' ∧
    (out.takes b.stream (due b pieces.flatten) →
      received b'.stream ++ pending b' = received b.stream ++ pending b ++ pieces.flatten) ∧
    (¬ out.takes b.stream (due b pieces.flatten) →
      (received b'.stream ++ pending b').length <
        (received b.stream ++ pending b ++ pieces.flatten).length) := by
  induction h with
  | none b =>
    have hnone : due b (List.flatten []) = [] := due_nil hb
    rw [hnone]
    exact ⟨hb, fun _ => by simp, fun hn => absurd trivial hn⟩
  | @piece b b₁ b' r piece pieces head ok tail ih =>
    have hpiece : piece.length < word := hsmall piece List.mem_cons_self
    have hrest := fun p hp => hsmall p (List.mem_cons_of_mem _ hp)
    obtain ⟨_, hout | hout⟩ := write_outcome ho hb hpiece head
    · obtain ⟨hfits, hall, hshort⟩ := ih hout.fits hrest
      have hholds := hout.holds ho
      dsimp only at hholds
      rw [hholds] at hall hshort
      rw [List.flatten_cons, hout.due_append, hout.took.takes_append]
      refine ⟨hfits, ?_, ?_⟩
      · intro ht
        rw [hall ht, List.append_assoc _ piece]
      · intro hn
        have := hshort hn
        simp only [List.length_append] at this ⊢
        omega
    · obtain ⟨hfits, hall, hshort⟩ := ih hout.fits hrest
      obtain ⟨_, k, hkept, hk, _⟩ := hout.loses ho hpiece
      dsimp only at hkept
      obtain ⟨later, hdue⟩ := due_left b piece pieces.flatten
      have hnot : ¬ out.takes b.stream (due b (piece :: pieces).flatten) := by
        rw [List.flatten_cons, hdue]
        exact fun ht => hout.not_takes (OutStream.takes_left ht)
      have hle : (received b'.stream ++ pending b').length ≤
          (received b₁.stream ++ pending b₁ ++ pieces.flatten).length := by
        by_cases ht : out.takes b₁.stream (due b₁ pieces.flatten)
        · exact Nat.le_of_eq (congrArg List.length (hall ht))
        · exact Nat.le_of_lt (hshort ht)
      refine ⟨hfits, fun ht => absurd ht hnot, fun _ => ?_⟩
      rw [hkept] at hle
      simp only [List.length_append, List.length_take, List.flatten_cons] at hle ⊢
      omega

/-- When a copy into a buffered stream returns true and the flush after it does
not fail, the sink holds exactly the source if and only if it accepts each of
the full blocks the source fills: a refused block is masked by the buffer. -/
theorem copy_flush_exact_iff {src : InStream σ} {content : List Byte} {pos : σ → Nat}
    (hsrc : Provides src content pos) (ho : AllOrNothing out received) {size : Nat}
    (hs : 1 ≤ size) (hw : size < word) {fuel fuel' : Nat} {s : σ} {t : τ}
    {c : Copied σ (BufferedOutStream τ) Unit}
    (hc : copy src (outStream out fuel') fuel s (init t size) = .ok c) (hret : c.ret = true)
    {r : Int} {b : BufferedOutStream τ} (hf : flush out c.sink = .ok (r, b)) (hr : r ≠ -1) :
    received b.stream = received t ++ content.drop (pos s) ↔
      out.takes t (spills size (content.drop (pos s))) := by
  have hne : ¬ size = 0 := by omega
  obtain ⟨chunks, _, hflat, hsmall, hsent⟩ := copy_sends hsrc List.length_replicate hc hret
  dsimp only at hflat hsent
  have hbw : Copy.bufferSize < word := by decide
  obtain ⟨hfits, hall, hshort⟩ := sent_through_buffer ho hsent (init_fits hs hw)
    (fun p hp => by have := hsmall p hp; omega)
  obtain ⟨r', b', hflush, _, _, hholds, hlast⟩ := OutRuns.flush_outcome ho hfits
  rw [hf] at hflush
  cases hflush
  have hempty : pending b = [] := by
    rcases hlast with h | h
    · exact absurd h hr
    · exact h
  have hstart : pending (init t size) = [] := by simp [init, pending]
  have hdue : due (init t size) chunks.flatten = spills size (content.drop (pos s)) := by
    rw [due, hstart, hflat]
    simp [init, hne]
  rw [hempty, List.append_nil] at hholds
  rw [hdue, hstart, hflat, List.append_nil] at hall hshort
  rw [hholds]
  constructor
  · intro he
    apply Classical.byContradiction
    intro hn
    have := hshort hn
    rw [he] at this
    exact absurd this (Nat.lt_irrefl _)
  · intro ht
    exact hall ht

end

/-- The copy returns true although the third byte never reached the sink. -/
theorem copy_short_write_gap :
    copy (pieces [1, 2, 3] 5) (capped 2) 9 0 [] = .ok ⟨true, 3, [1, 2], ()⟩ ∧
    copyProgresser (pieces [1, 2, 3] 5) (capped 2) Progresser.none 9 0 [] () =
      .ok ⟨true, 3, [1, 2], ()⟩ ∧
    ([1, 2] : List Byte) ≠ [1, 2, 3] :=
  ⟨ok_of_toOption (by decide +kernel), ok_of_toOption (by decide +kernel), by decide⟩

/-- Three bytes to a sink that takes two of each write: the copy is not
complete, because the one chunk is not taken in full. -/
theorem copy_complete_three :
    ¬ ∀ chunks, (pieces [1, 2, 3] 5).Chunks bufferSize 0 chunks → (capped 2).takes [] chunks := by
  have hrun : copy (pieces [1, 2, 3] 5) (capped 2) 9 0 [] = .ok ⟨true, 3, [1, 2], ()⟩ :=
    ok_of_toOption (by decide +kernel)
  rw [← (copy_complete_iff (pieces_serves [1, 2, 3] 5 (by decide)).provides (capped_consumes 2)
    Progresser.none 9 0 [] ()).1 _ hrun rfl]
  decide

/-- The sink refuses the first block of a nine byte source, the copy returns
true, the flush succeeds, and five bytes are gone. -/
theorem copy_masks_refused_block :
    copy (pieces [1, 2, 3, 4, 5, 6, 7, 8, 9] 5) (BufferedOutStream.outStream scripted 9) 9 0
        (BufferedOutStream.init ([false], []) 4) =
      .ok ⟨true, 9, ⟨([], []), [6, 7, 8, 9], 4, 4⟩, ()⟩ ∧
    BufferedOutStream.flush scripted ⟨([], []), [6, 7, 8, 9], 4, 4⟩ =
      .ok (4, ⟨([], [6, 7, 8, 9]), [6, 7, 8, 9], 4, 0⟩) ∧
    ([6, 7, 8, 9] : List Byte) ≠ [1, 2, 3, 4, 5, 6, 7, 8, 9] :=
  ⟨ok_of_toOption (by decide +kernel), ok_of_toOption (by decide +kernel), by decide⟩

/-- Nine bytes through a buffer of four to a sink that refuses the first write:
the copy ends inexact, because a full block is not accepted. -/
theorem copy_flush_exact_nine :
    ¬ scripted.takes ([false], []) (spills 4 [1, 2, 3, 4, 5, 6, 7, 8, 9]) := by
  have hrun : copy (pieces [1, 2, 3, 4, 5, 6, 7, 8, 9] 5) (BufferedOutStream.outStream scripted 9)
      9 0 (BufferedOutStream.init ([false], []) 4) =
        .ok ⟨true, 9, ⟨([], []), [6, 7, 8, 9], 4, 4⟩, ()⟩ :=
    ok_of_toOption (by decide +kernel)
  have hflush : BufferedOutStream.flush scripted ⟨([], []), [6, 7, 8, 9], 4, 4⟩ =
      .ok (4, ⟨([], [6, 7, 8, 9]), [6, 7, 8, 9], 4, 0⟩) := ok_of_toOption (by decide +kernel)
  have hiff := copy_flush_exact_iff
    (pieces_serves [1, 2, 3, 4, 5, 6, 7, 8, 9] 5 (by decide)).provides
    scripted_all_or_nothing (by decide) (by decide) hrun rfl hflush (by decide)
  intro ht
  exact absurd (hiff.mpr ht) (by decide)

end CkCore.Proofs.CopyStream
