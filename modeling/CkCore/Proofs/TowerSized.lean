import CkCore.Proofs.TowerCopy
import CkCore.Spec.Sending

namespace CkCore.Proofs.TowerSized
open Lib Copy Cursor TowerCopy

section
variable {ρ σ υ τ π : Type} {most : Nat} {R : ρ → σ → Prop} {S : υ → τ → Prop}
  {first : InStream ρ} {second : InStream σ} {out : OutStream υ} {out' : OutStream τ}
  {progresser : Progresser π}

/-- Two sized copies at the same point, over related sources and related sinks. -/
inductive AtSized (R : ρ → σ → Prop) (S : υ → τ → Prop) :
    Sending ρ υ π → Sending σ τ π → Prop where
  | same {i : ρ} {s : σ} {u : υ} {t : τ} (progress : π) {buffer : List Byte} (size : Nat)
      (res : Int) (source : R i s) (sink : S u t) (room : buffer.length = bufferSize) :
      AtSized R S ⟨i, u, progress, buffer, size, res⟩ ⟨s, t, progress, buffer, size, res⟩

/-- Two copies that leave the loop that sends in the same way. -/
inductive Through (R : ρ → σ → Prop) (S : υ → τ → Prop) :
    Copied ρ υ π ⊕ Sending ρ υ π → Copied σ τ π ⊕ Sending σ τ π → Prop where
  | done {c : Copied ρ υ π} {c' : Copied σ τ π} (ended : Ended R S c c') :
      Through R S (.inl c) (.inl c')
  | pads {c : Sending ρ υ π} {c' : Sending σ τ π} (at_same : AtSized R S c c') :
      Through R S (.inr c) (.inr c')

theorem amount_le (size : Nat) : amount size ≤ bufferSize := by
  rw [amount_eq]
  exact Nat.min_le_right _ _

theorem loaded_le {buffer data : List Byte} {n : Nat} (h : load buffer 0 n = .ok data)
    (hb : buffer.length = bufferSize) : data.length ≤ bufferSize := by
  obtain ⟨_, rfl⟩ := load_inside h
  simp only [List.length_take, List.length_drop]
  omega

theorem sendPass_refines (hin : InStream.Simulates most R first second)
    (hout : OutStream.Simulates bufferSize S out out') (hm : bufferSize ≤ most)
    (c : Sending ρ υ π) (c' : Sending σ τ π) (hc : AtSized R S c c') :
    Refines (Goes (AtSized R S) (Through R S)) (sendPass first out progresser c)
      (sendPass second out' progresser c') := by
  obtain ⟨progress, size, res, hr, hs, hroom⟩ := hc
  unfold sendPass
  dsimp only
  rw [hin.ended hr]
  split
  · split
    · exact refines_ok (.leave (.done ⟨rfl, hr, hs, rfl⟩))
    · refine (hin.read hr _ (Nat.le_trans (amount_le size) hm)).bind ?_
      rintro ⟨res, i'⟩ ⟨_, s'⟩ ⟨rfl, hr'⟩
      refine (refines_known _).bind ?_
      rintro buffer _ ⟨rfl, hstore⟩
      have hlength := (store_length hstore).trans hroom
      dsimp only
      split
      · exact refines_ok (.leave (.done ⟨rfl, hr', hs, rfl⟩))
      · refine (refines_known _).bind ?_
        rintro data _ ⟨rfl, hload⟩
        refine (hout _ _ hs data (loaded_le hload hlength)).bind ?_
        rintro ⟨written, u'⟩ ⟨_, t'⟩ ⟨rfl, hs'⟩
        dsimp only
        split
        · exact refines_ok (.leave (.done ⟨rfl, hr', hs', rfl⟩))
        · exact refines_ok (.again (.same _ _ _ hr' hs' hlength))
  · exact refines_ok (.leave (.pads (.same _ _ _ hr hs hroom)))

theorem padPass_refines (hout : OutStream.Simulates bufferSize S out out')
    (c : Sending ρ υ π) (c' : Sending σ τ π) (hc : AtSized R S c c') :
    Refines (Goes (AtSized R S) (Ended R S)) (padPass out progresser c)
      (padPass out' progresser c') := by
  obtain ⟨progress, size, res, hr, hs, hroom⟩ := hc
  unfold padPass
  dsimp only
  split
  · refine (refines_known _).bind ?_
    rintro buffer _ ⟨rfl, hstore⟩
    have hlength := (store_length hstore).trans hroom
    refine (refines_known _).bind ?_
    rintro data _ ⟨rfl, hload⟩
    refine (hout _ _ hs data (loaded_le hload hlength)).bind ?_
    rintro ⟨written, u'⟩ ⟨_, t'⟩ ⟨rfl, hs'⟩
    dsimp only
    split
    · exact refines_ok (.leave ⟨rfl, hr, hs', rfl⟩)
    · exact refines_ok (.again (.same _ _ _ hr hs' hlength))
  · exact refines_ok (.leave ⟨rfl, hr, hs, rfl⟩)

/-- The sized copy between streams that simulate others does what the one between
those does. -/
theorem copySized_refines (hin : InStream.Simulates most R first second)
    (hout : OutStream.Simulates bufferSize S out out') (hm : bufferSize ≤ most) (fuel : Nat)
    {i : ρ} {s : σ} (hr : R i s) {u : υ} {t : τ} (hs : S u t) (p : π) (size : Nat) :
    Refines (Ended R S) (copySized first out progresser fuel i u p size)
      (copySized second out' progresser fuel s t p size) := by
  refine (refines_loop (sendPass_refines hin hout hm) fuel
    (.same p size 0 hr hs List.length_replicate)).bind ?_
  rintro c c' (hended | hat)
  · exact refines_ok hended
  · exact refines_loop (padPass_refines hout) fuel hat

end

/-- The content cut or filled up with zeros to a size. -/
def sized (content : List Byte) (size : Nat) : List Byte :=
  content.take size ++ List.replicate (size - content.length) 0

theorem take_sized {content : List Byte} {n size : Nat} (h : n ≤ size) :
    content.take n <+: sized content size :=
  (List.take_prefix_take_left h).trans (List.prefix_append _ _)

theorem sized_length (content : List Byte) (size : Nat) : (sized content size).length = size := by
  simp only [sized, List.length_append, List.length_take, List.length_replicate]
  omega

section
variable {π : Type} {progresser : Progresser π} {content front : List Byte}
  {reach total size fuel : Nat}

/-- Where a sized copy of the cursor stands while it sends. -/
structure Halfway (content front : List Byte) (size : Nat)
    (c : Sending (Fin (content.length + 1)) (List Byte) π) : Prop where
  sink : c.sink = front ++ content.take c.source.val
  left : c.source.val + c.size = size
  room : c.buffer.length = bufferSize

/-- Where it stands while it pads. -/
structure Padding (content front : List Byte) (size : Nat)
    (c : Sending (Fin (content.length + 1)) (List Byte) π) : Prop where
  sink : ∃ n, c.sink = front ++ (content.take size ++ List.replicate n 0) ∧
    n + c.size = size - content.length
  room : c.buffer.length = bufferSize

/-- What a sized copy of the cursor leaves. -/
structure Sent (progresser : Progresser π) (content front : List Byte) (size : Nat)
    (r : Copied (Fin (content.length + 1)) (List Byte) π) : Prop where
  sink : ∃ part, r.sink = front ++ part ∧ part <+: sized content size ∧
    (r.ret = true → part = sized content size)
  cancelled : r.ret = false → ∃ p, progresser.cancelled p = (true, r.progress)

/-- How the loop that sends is left: the copy was cancelled, or is to be padded. -/
def Stopped (progresser : Progresser π) (content front : List Byte) (size : Nat) :
    Copied (Fin (content.length + 1)) (List Byte) π ⊕
      Sending (Fin (content.length + 1)) (List Byte) π → Prop
  | .inl r => r.ret = false ∧ Sent progresser content front size r
  | .inr c => Padding content front size c

/-- Behind the end of the content, or of what is to be sent, the rest is padding. -/
theorem Halfway.padding {c : Sending (Fin (content.length + 1)) (List Byte) π}
    (hc : Halfway content front size c) (h : c.source.val = content.length ∨ c.size = 0) :
    Padding content front size c := by
  obtain ⟨hsink, hleft, hroom⟩ := hc
  have hsource := c.source.isLt
  refine ⟨⟨0, ?_, by omega⟩, hroom⟩
  have htake : content.take c.source.val = content.take size := by
    rcases h with h | h
    · rw [h, List.take_length, List.take_of_length_le (by omega)]
    · rw [show c.source.val = size by omega]
  rw [hsink, htake, List.replicate_zero, List.append_nil]

theorem send_pass (progresser : Progresser π) (reach : Nat) (hs : size < longWord)
    (ht : front.length + size ≤ total)
    (c : Sending (Fin (content.length + 1)) (List Byte) π) (hc : Halfway content front size c) :
    (∃ c', sendPass (Cursor.inStream content reach) (gatherer total) progresser c =
        .ok (.again c') ∧ Halfway content front size c' ∧ c'.size < c.size) ∨
    ∃ x, sendPass (Cursor.inStream content reach) (gatherer total) progresser c =
      .ok (.leave x) ∧ Stopped progresser content front size x := by
  have hsource := c.source.isLt
  by_cases hgo : (Cursor.inStream content reach).end c.source = false ∧ 0 < c.size
  · obtain ⟨hsink, hleft, hroom⟩ := hc
    by_cases hcancel : (progresser.cancelled c.progress).1 = true
    · refine Or.inr ⟨.inl ⟨false, c.source, c.sink, (progresser.cancelled c.progress).2⟩, ?_, rfl,
        ⟨_, hsink, take_sized (by omega), nofun⟩, fun _ => ⟨c.progress, Prod.ext hcancel rfl⟩⟩
      rw [sendPass, if_pos hgo]
      simp only [hcancel, ↓reduceIte]
    · left
      have hmore : ¬ c.source.val = content.length := fun h =>
        Bool.eq_false_iff.mp hgo.1 (beq_iff_eq.mpr h)
      have hamount := amount_eq c.size
      have hpositive : 0 < bufferSize := by decide
      have hlength := slice_length content c.source.val (amount c.size)
      have hfit : (slice content c.source.val (amount c.size)).length ≤ bufferSize := by omega
      obtain ⟨buffer, hstore, hbuffer, hload⟩ := through_buffer hroom hfit
      have hread : (Cursor.inStream content reach).read c.source (amount c.size) =
          .ok (⟨(slice content c.source.val (amount c.size)).length,
            slice content c.source.val (amount c.size)⟩,
            ⟨c.source.val + (slice content c.source.val (amount c.size)).length, by omega⟩) := rfl
      have hret : ¬ (((slice content c.source.val (amount c.size)).length : Nat) : Int) = -1 := by
        omega
      have hwrite : (gatherer total).write c.sink (slice content c.source.val (amount c.size)) =
          .ok ((slice content c.source.val (amount c.size)).length,
            c.sink ++ slice content c.source.val (amount c.size)) := by
        apply gatherer_takes
        rw [hsink, List.length_append, List.length_take]
        omega
      have hless : subLong c.size (slice content c.source.val (amount c.size)).length =
          c.size - (slice content c.source.val (amount c.size)).length :=
        subLong_eq (by omega) (by omega)
      refine ⟨⟨⟨c.source.val + (slice content c.source.val (amount c.size)).length, by omega⟩,
        c.sink ++ slice content c.source.val (amount c.size),
        progresser.update (progresser.cancelled c.progress).2
          (slice content c.source.val (amount c.size)).length, buffer,
        subLong c.size (slice content c.source.val (amount c.size)).length,
        (slice content c.source.val (amount c.size)).length⟩, ?_, ⟨?_, ?_, hbuffer⟩, ?_⟩
      · rw [sendPass, if_pos hgo]
        simp only [hcancel, Bool.false_eq_true, ↓reduceIte, hread, ok_bind, hstore, hret, hload,
          hwrite]
        rfl
      · dsimp only
        rw [hsink, List.append_assoc, List.take_add]
        congr 2
        exact slice_of_prefix (List.take_prefix _ _)
      · dsimp only
        omega
      · dsimp only
        omega
  · refine Or.inr ⟨.inr c, ?_, hc.padding ?_⟩
    · rw [sendPass, if_neg hgo]
    · by_cases hend : c.source.val = content.length
      · exact Or.inl hend
      · refine Or.inr (Decidable.byContradiction fun hsize => hgo ⟨?_, by omega⟩)
        exact beq_eq_false_iff_ne.mpr hend

theorem pad_pass (progresser : Progresser π) (hs : size < longWord)
    (ht : front.length + size ≤ total)
    (c : Sending (Fin (content.length + 1)) (List Byte) π) (hc : Padding content front size c) :
    (∃ c', padPass (gatherer total) progresser c = .ok (.again c') ∧
      Padding content front size c' ∧ c'.size < c.size) ∨
    ∃ r, padPass (gatherer total) progresser c = .ok (.leave r) ∧ r.ret = true ∧
      Sent progresser content front size r := by
  obtain ⟨⟨n, hsink, hleft⟩, hroom⟩ := hc
  by_cases hgo : 0 < c.size
  · left
    have hamount := amount_eq c.size
    have hpositive : 0 < bufferSize := by decide
    obtain ⟨hstore, hload⟩ := buffer_zeros hroom (amount_le c.size)
    have hwrite : (gatherer total).write c.sink (List.replicate (amount c.size) 0) =
        .ok (amount c.size, c.sink ++ List.replicate (amount c.size) 0) := by
      have hfits : c.sink.length + (List.replicate (amount c.size) (0 : Byte)).length ≤ total := by
        rw [hsink]
        simp only [List.length_append, List.length_take, List.length_replicate]
        omega
      have htaken := gatherer_takes hfits
      rwa [List.length_replicate] at htaken
    have hret : ¬ ((amount c.size : Nat) : Int) = -1 := by omega
    have hless : subLong c.size (amount c.size) = c.size - amount c.size :=
      subLong_eq (by omega) (by omega)
    refine ⟨⟨c.source, c.sink ++ List.replicate (amount c.size) 0,
      progresser.update c.progress (amount c.size), List.replicate bufferSize 0,
      subLong c.size (amount c.size), amount c.size⟩, ?_,
      ⟨⟨n + amount c.size, ?_, ?_⟩, List.length_replicate⟩, ?_⟩
    · rw [padPass, if_pos hgo]
      simp only [hstore, ok_bind, hload, hwrite, hret, ↓reduceIte]
      rfl
    · dsimp only
      rw [hsink, List.append_assoc, List.append_assoc, List.replicate_append_replicate]
    · dsimp only
      omega
    · dsimp only
      omega
  · right
    obtain rfl : n = size - content.length := by omega
    refine ⟨⟨true, c.source, c.sink, c.progress⟩, ?_, rfl,
      ⟨_, hsink, List.prefix_refl _, fun _ => rfl⟩, nofun⟩
    rw [padPass, if_neg hgo]

/-- The sized copy of the cursor returns, with as much sent as was asked for unless
the user cancelled it. -/
theorem cursor_sized (progresser : Progresser π) (hs : size < longWord)
    (ht : front.length + size ≤ total) (hf : size < fuel) (p : π) :
    ∃ r, copySized (Cursor.inStream content reach) (gatherer total) progresser fuel 0 front p size =
      .ok r ∧ Sent progresser content front size r := by
  obtain ⟨x, hsend, hx⟩ := loop_total (P := Halfway content front size) (fun c => c.size)
    (send_pass progresser reach hs ht) fuel (.start 0 front p size)
    ⟨by simp [Sending.start], by simp [Sending.start], List.length_replicate⟩ hf
  cases x with
  | inl r =>
    refine ⟨r, ?_, hx.2⟩
    simp only [copySized, hsend, ok_bind]
    rfl
  | inr c =>
    have hc : c.size < fuel := by
      obtain ⟨⟨n, _, hleft⟩, _⟩ := hx
      omega
    obtain ⟨r, hpad, _, hr⟩ := loop_total (P := Padding content front size) (fun c => c.size)
      (pad_pass progresser hs ht) fuel c hx hc
    refine ⟨r, ?_, hr⟩
    simp only [copySized, hsend, ok_bind]
    exact hpad

end

section
open OutTower
variable {σ τ π : Type} {src : InStream σ} {out : OutStream τ} {content : List Byte}
  {pos : σ → Nat} {progresser : Progresser π} {fuel : Nat}

/-- A sized copy through buffered streams on both sides, the output being flushed
from the top down, delivers just as many bytes as asked for: the front of the
content, and zeros behind its end. A copy that returns false was cancelled, and has
delivered some front of these. -/
theorem towers_copy_sized (hsrc : Serves src content pos) {ins : List Nat} (hne : ins ≠ [])
    (hw : ∀ n ∈ ins, n < word) {s : σ} (h0 : pos s = 0) {received : τ → List Byte}
    (hout : AcceptsAll out received) {outs : List Nat} (hfit : fitting bufferSize outs) (t : τ)
    (p : π) {size : Nat} (hs : size < longWord) (hc : content.length < fuel) (hsf : size < fuel)
    (hf : word ≤ fuel) :
    ∃ r, copySized (InTower.inStream src fuel ins) (outStream out fuel outs) progresser fuel
        (InTower.init s ins) (init t outs) p size = .ok r ∧
      (r.ret = false → ∃ q, progresser.cancelled q = (true, r.progress)) ∧
      ∃ part, part <+: sized content size ∧ (r.ret = true → part = sized content size) ∧
        ∃ T, flushAll out fuel outs r.sink = .ok T ∧
          received (base outs T) = received t ++ part := by
  have hsim := hout.simulates word ((received t).length + size)
  obtain ⟨S, hstands, hin⟩ := InTowers.serves_stands hsrc hc hne hw s (c := 0) h0
  obtain ⟨i, hideal, ⟨part, hsink, hpart, hwhole⟩, hcancel⟩ :=
    cursor_sized progresser hs (Nat.le_refl ((received t).length + size)) hsf p
  have htower := OutTowers.tower_simulates hsim hf (by decide) hfit
  have hinit := OutTowers.init_holds (R := fun l t => received t = l) (t := t) rfl
    (OutTowers.fitting_word hfit)
  obtain ⟨r, hrun, hended⟩ := copySized_refines hin htower (by decide) fuel hstands hinit p size i
    hideal
  have hlength := hpart.length_le
  rw [sized_length] at hlength
  obtain ⟨T, hflush, hbase, _⟩ := OutTowers.flushAll_empties hsim hf hfit hended.sink (by
    rw [hsink, List.length_append]
    omega)
  refine ⟨r, hrun, ?_, part, hpart, ?_, T, hflush, ?_⟩
  · intro hret
    rw [hended.progress]
    exact hcancel (hended.ret ▸ hret)
  · intro hret
    exact hwhole (hended.ret ▸ hret)
  · rw [← hsink]
    exact hbase

/-- Seven bytes asked for of five. -/
theorem towers_copy_sized_seven :
    ∃ r, copySized (InTower.inStream (pieces [1, 2, 3, 4, 5] 2) word [1, 3])
        (outStream collector word [2, 4]) Progresser.none word
        (InTower.init (σ := Fin 6) 0 [1, 3]) (init (τ := List Byte) [] [2, 4]) () 7 = .ok r ∧
      (r.ret = false → ∃ q, Progresser.none.cancelled q = (true, r.progress)) ∧
      ∃ part, part <+: [1, 2, 3, 4, 5, 0, 0] ∧ (r.ret = true → part = [1, 2, 3, 4, 5, 0, 0]) ∧
        ∃ T, flushAll collector word [2, 4] r.sink = .ok T ∧
          id (base [2, 4] T) = id [] ++ part :=
  towers_copy_sized (pieces_serves [1, 2, 3, 4, 5] 2 (by decide)) (by decide) (by decide) rfl
    collector_accepts (by simp [fitting, bufferOf]; decide) [] () (by decide) (by decide)
    (by decide) (Nat.le_refl _)

end

end CkCore.Proofs.TowerSized
