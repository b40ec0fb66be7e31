import CkCore.Model.Copy
import CkCore.Proofs.OutTowers

namespace CkCore.Proofs.TowerCopy
open Lib Copy Cursor

section
variable {ρ σ υ τ π : Type} {most : Nat} {R : ρ → σ → Prop} {S : υ → τ → Prop}
  {first : InStream ρ} {second : InStream σ} {out : OutStream υ} {out' : OutStream τ}
  {progresser : Progresser π}

/-- Two copies at the same point, over related sources and related sinks. -/
inductive AtSame (R : ρ → σ → Prop) (S : υ → τ → Prop) :
    Copying ρ υ π → Copying σ τ π → Prop where
  | same {i : ρ} {s : σ} {u : υ} {t : τ} (progress : π) {buffer : List Byte} (source : R i s)
      (sink : S u t) (room : buffer.length = bufferSize) :
      AtSame R S ⟨i, u, progress, buffer⟩ ⟨s, t, progress, buffer⟩

/-- Two copies that returned alike. -/
structure Ended (R : ρ → σ → Prop) (S : υ → τ → Prop) (c : Copied ρ υ π) (c' : Copied σ τ π) :
    Prop where
  ret : c'.ret = c.ret
  source : R c.source c'.source
  sink : S c.sink c'.sink
  progress : c'.progress = c.progress

theorem copyPass_refines (hin : InStream.Simulates most R first second)
    (hout : OutStream.Simulates bufferSize S out out') (hm : bufferSize ≤ most)
    (c : Copying ρ υ π) (c' : Copying σ τ π) (hc : AtSame R S c c') :
    Refines (Goes (AtSame R S) (Ended R S)) (copyPass first out progresser c)
      (copyPass second out' progresser c') := by
  obtain ⟨progress, hr, hs, hroom⟩ := hc
  unfold copyPass
  dsimp only
  rw [hin.ended hr]
  split
  · exact refines_ok (.leave ⟨rfl, hr, hs, rfl⟩)
  · split
    · exact refines_ok (.leave ⟨rfl, hr, hs, rfl⟩)
    · refine (hin.read hr bufferSize hm).bind ?_
      rintro ⟨res, i'⟩ ⟨_, s'⟩ ⟨rfl, hr'⟩
      refine (refines_known _).bind ?_
      rintro buffer _ ⟨rfl, hstore⟩
      have hlength := (store_length hstore).trans hroom
      dsimp only
      split
      · exact refines_ok (.leave ⟨rfl, hr', hs, rfl⟩)
      · refine (refines_known _).bind ?_
        rintro data _ ⟨rfl, hload⟩
        have hdata : data.length ≤ bufferSize := by
          obtain ⟨hinside, rfl⟩ := load_inside hload
          rw [List.length_take, List.length_drop]
          omega
        refine (hout _ _ hs data hdata).bind ?_
        rintro ⟨written, u'⟩ ⟨_, t'⟩ ⟨rfl, hs'⟩
        dsimp only
        split
        · exact refines_ok (.leave ⟨rfl, hr', hs', rfl⟩)
        · exact refines_ok (.again (.same _ hr' hs' hlength))

/-- A copy between streams that simulate others does what the copy between
those does. -/
theorem copy_refines (hin : InStream.Simulates most R first second)
    (hout : OutStream.Simulates bufferSize S out out') (hm : bufferSize ≤ most) (fuel : Nat)
    {i : ρ} {s : σ} (hr : R i s) {u : υ} {t : τ} (hs : S u t) (p : π) :
    Refines (Ended R S) (copyProgresser first out progresser fuel i u p)
      (copyProgresser second out' progresser fuel s t p) :=
  refines_loop (copyPass_refines hin hout hm) fuel (.same p hr hs List.length_replicate)

end

section
variable {π : Type} {progresser : Progresser π} {content front : List Byte}
  {reach total fuel : Nat}

/-- Where a copy of the cursor stands: what is in front of the cursor is in the
gatherer. -/
structure Halfway (content front : List Byte)
    (c : Copying (Fin (content.length + 1)) (List Byte) π) : Prop where
  sink : c.sink = front ++ content.take c.source.val
  room : c.buffer.length = bufferSize

/-- What a copy of the cursor leaves: all of the content, or some front of it
when it was cancelled. -/
structure Sent (progresser : Progresser π) (content front : List Byte)
    (r : Copied (Fin (content.length + 1)) (List Byte) π) : Prop where
  sink : r.sink = front ++ content.take r.source.val
  whole : r.ret = true → r.source.val = content.length
  cancelled : r.ret = false → ∃ p, progresser.cancelled p = (true, r.progress)

theorem cursor_pass (ht : front.length + content.length ≤ total)
    (c : Copying (Fin (content.length + 1)) (List Byte) π) (hc : Halfway content front c) :
    (∃ c', copyPass (Cursor.inStream content reach) (gatherer total) progresser c =
        .ok (.again c') ∧
      Halfway content front c' ∧
      content.length - c'.source.val < content.length - c.source.val) ∨
    ∃ r, copyPass (Cursor.inStream content reach) (gatherer total) progresser c = .ok (.leave r) ∧
      Sent progresser content front r := by
  obtain ⟨hsink, hroom⟩ := hc
  by_cases hend : c.source.val = content.length
  · refine Or.inr ⟨⟨true, c.source, c.sink, c.progress⟩, ?_, hsink, fun _ => hend, nofun⟩
    have hended : (Cursor.inStream content reach).end c.source = true := beq_iff_eq.mpr hend
    rw [copyPass, if_pos hended]
  · have hended : ¬ (Cursor.inStream content reach).end c.source = true :=
      fun h => hend (beq_iff_eq.mp h)
    have hsource := c.source.isLt
    by_cases hcancel : (progresser.cancelled c.progress).1 = true
    · refine Or.inr ⟨⟨false, c.source, c.sink, (progresser.cancelled c.progress).2⟩, ?_, hsink,
        nofun, fun _ => ⟨c.progress, Prod.ext hcancel rfl⟩⟩
      rw [copyPass, if_neg hended]
      simp only [hcancel, ↓reduceIte]
    · left
      have hlength := slice_length content c.source.val bufferSize
      have hpositive : 0 < bufferSize := by decide
      have hfit : (slice content c.source.val bufferSize).length ≤ bufferSize := by omega
      obtain ⟨buffer, hstore, hbuffer, hload⟩ := through_buffer hroom hfit
      have hread : (Cursor.inStream content reach).read c.source bufferSize =
          .ok (⟨(slice content c.source.val bufferSize).length,
            slice content c.source.val bufferSize⟩,
            ⟨c.source.val + (slice content c.source.val bufferSize).length, by omega⟩) := rfl
      have hret : ¬ (((slice content c.source.val bufferSize).length : Nat) : Int) = -1 := by
        omega
      have hwrite : (gatherer total).write c.sink (slice content c.source.val bufferSize) =
          .ok ((slice content c.source.val bufferSize).length,
            c.sink ++ slice content c.source.val bufferSize) := by
        apply gatherer_takes
        rw [hsink, List.length_append, List.length_take]
        omega
      refine ⟨⟨⟨c.source.val + (slice content c.source.val bufferSize).length, by omega⟩,
        c.sink ++ slice content c.source.val bufferSize,
        progresser.update (progresser.cancelled c.progress).2
          (slice content c.source.val bufferSize).length, buffer⟩, ?_, ⟨?_, hbuffer⟩, ?_⟩
      · rw [copyPass, if_neg hended]
        simp only [hcancel, Bool.false_eq_true, ↓reduceIte, hread, ok_bind, hstore, hret, hload,
          hwrite]
        rfl
      · dsimp only
        rw [hsink, List.append_assoc, List.take_add]
        congr 2
        exact slice_of_prefix (List.take_prefix _ _)
      · dsimp only
        omega

/-- The copy of the cursor returns, with all of the content sent unless the user
cancelled it. -/
theorem cursor_copy (progresser : Progresser π) (ht : front.length + content.length ≤ total)
    (hf : content.length < fuel) (p : π) :
    ∃ r, copyProgresser (Cursor.inStream content reach) (gatherer total) progresser fuel 0 front p =
      .ok r ∧ Sent progresser content front r := by
  refine loop_total (P := Halfway content front) (fun c => content.length - c.source.val)
    (cursor_pass ht) fuel ⟨0, front, p, List.replicate bufferSize 0⟩
    ⟨by simp, List.length_replicate⟩ ?_
  dsimp only
  omega

end

section
open OutTower
variable {σ τ π : Type} {src : InStream σ} {out : OutStream τ} {content : List Byte}
  {pos : σ → Nat} {progresser : Progresser π} {fuel : Nat}

/-- What copying a stream that stands at the beginning of its content does to a
tower over a sink that simulates a gatherer, the tower being flushed afterwards. -/
theorem stands_copied {most reach total : Nat} {R : List Byte → τ → Prop} {s : σ}
    (hin : InTowers.Stands most reach content src s 0) (hm : bufferSize ≤ most)
    (hout : OutStream.Simulates word R (gatherer total) out) {outs : List Nat}
    (hfit : fitting bufferSize outs) {front : List Byte} {T : OutTower τ outs}
    (hT : OutTowers.Holds R outs front T) (ht : front.length + content.length ≤ total)
    (hc : content.length < fuel) (hf : word ≤ fuel) (progresser : Progresser π) (p : π) :
    ∃ r, copyProgresser src (outStream out fuel outs) progresser fuel s T p = .ok r ∧
      (r.ret = false → ∃ q, progresser.cancelled q = (true, r.progress)) ∧
      ∃ part, part <+: content ∧ (r.ret = true → part = content) ∧
        ∃ T', flushAll out fuel outs r.sink = .ok T' ∧ R (front ++ part) (base outs T') := by
  obtain ⟨S, hs, hsim⟩ := hin
  obtain ⟨i, hideal, hsent⟩ := cursor_copy progresser ht hc p
  have htower := OutTowers.tower_simulates hout hf (by decide) hfit
  obtain ⟨r, hrun, hended⟩ := copy_refines hsim htower hm fuel hs hT p i hideal
  have hsource := i.source.isLt
  obtain ⟨T', hflush, hbase, _⟩ := OutTowers.flushAll_empties hout hf hfit hended.sink (by
    rw [hsent.sink, List.length_append, List.length_take]
    omega)
  refine ⟨r, hrun, ?_, content.take i.source.val, List.take_prefix _ _, ?_, T', hflush, ?_⟩
  · intro hret
    rw [hended.progress]
    exact hsent.cancelled (hended.ret ▸ hret)
  · intro hret
    rw [hsent.whole (hended.ret ▸ hret), List.take_length]
  · rw [← hsent.sink]
    exact hbase

/-- Copying through buffered streams on both sides and flushing the output from
the top down delivers the content exactly, however the source fragments its
reads and whatever the sizes of the buffers are. A copy that returns false was
cancelled, and has delivered some front of the content. -/
theorem towers_copy (hsrc : Serves src content pos) {ins : List Nat} (hne : ins ≠ [])
    (hw : ∀ n ∈ ins, n < word) {s : σ} (h0 : pos s = 0) {received : τ → List Byte}
    (hout : AcceptsAll out received) {outs : List Nat} (hfit : fitting bufferSize outs) (t : τ)
    (p : π) (hc : content.length < fuel) (hf : word ≤ fuel) :
    ∃ r, copyProgresser (InTower.inStream src fuel ins) (outStream out fuel outs) progresser fuel
        (InTower.init s ins) (init t outs) p = .ok r ∧
      (r.ret = false → ∃ q, progresser.cancelled q = (true, r.progress)) ∧
      ∃ part, part <+: content ∧ (r.ret = true → part = content) ∧
        ∃ T, flushAll out fuel outs r.sink = .ok T ∧
          received (base outs T) = received t ++ part := by
  have hsim := hout.simulates word ((received t).length + content.length)
  exact stands_copied (InTowers.serves_stands hsrc hc hne hw s (c := 0) h0) (by decide) hsim hfit
    (OutTowers.init_holds (R := fun l t => received t = l) rfl (OutTowers.fitting_word hfit))
    (Nat.le_refl _) hc hf progresser p

/-- Five bytes, two at a time, through input buffers of one and three and output
buffers of two and four. -/
theorem towers_copy_five :
    ∃ r, copyProgresser (InTower.inStream (pieces [1, 2, 3, 4, 5] 2) word [1, 3])
        (outStream collector word [2, 4]) Progresser.none word
        (InTower.init (σ := Fin 6) 0 [1, 3]) (init (τ := List Byte) [] [2, 4]) () = .ok r ∧
      (r.ret = false → ∃ q, Progresser.none.cancelled q = (true, r.progress)) ∧
      ∃ part, part <+: [1, 2, 3, 4, 5] ∧ (r.ret = true → part = [1, 2, 3, 4, 5]) ∧
        ∃ T, flushAll collector word [2, 4] r.sink = .ok T ∧
          id (base [2, 4] T) = id [] ++ part :=
  towers_copy (pieces_serves [1, 2, 3, 4, 5] 2 (by decide)) (by decide) (by decide) rfl
    collector_accepts (by simp [fitting, bufferOf]; decide) [] () (by decide) (Nat.le_refl _)

end

end CkCore.Proofs.TowerCopy
