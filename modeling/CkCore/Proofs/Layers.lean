import CkCore.Proofs.BufferedIn
import CkCore.Proofs.BufferedOut
import CkCore.Spec.Simulates

namespace CkCore.Proofs.Layers
open Lib

section
open BufferedInStream
variable {ρ σ : Type} {most size : Nat} {R : ρ → σ → Prop} {first : InStream ρ}
  {second : InStream σ}

/-- Two buffered streams with the same buffer of `size` bytes over related streams. -/
inductive Over (size : Nat) (R : ρ → σ → Prop) :
    BufferedInStream ρ → BufferedInStream σ → Prop where
  | same {i : ρ} {s : σ} (buffer : List Byte) (bufferPos bufferData : Nat) (related : R i s) :
      Over size R ⟨i, buffer, size, bufferPos, bufferData⟩ ⟨s, buffer, size, bufferPos, bufferData⟩

/-- The loops of read are at the same point over related streams. -/
inductive OverReading (size : Nat) (R : ρ → σ → Prop) : Reading ρ → Reading σ → Prop where
  | same {b : BufferedInStream ρ} {b' : BufferedInStream σ} (count : Nat) (copied : List Byte)
      (related : Over size R b b') : OverReading size R ⟨b, count, copied⟩ ⟨b', count, copied⟩

theorem init_over {i : ρ} {s : σ} (hr : R i s) (hs : 0 < size) :
    Over size R (init i size) (init s size) := by
  have hne : ¬ size = 0 := by omega
  simp only [init, hne, ↓reduceIte]
  exact .same _ 0 0 hr

theorem readPass_refines (h : InStream.Simulates most R first second) (hs : size ≤ most)
    (r : Reading ρ) (r' : Reading σ) (hr : OverReading size R r r') :
    Refines (Goes (OverReading size R) (Alike (Over size R))) (readPass first r)
      (readPass second r') := by
  obtain ⟨count, copied, ⟨buffer, pos, data, hr⟩⟩ := hr
  unfold readPass
  dsimp only
  split
  · refine (refines_same _).bind ?_
    rintro part _ rfl
    rw [h.ended hr]
    split
    · exact refines_ok (.leave ⟨rfl, .same buffer 0 0 hr⟩)
    · refine (h.read hr size hs).bind ?_
      rintro ⟨res, i'⟩ ⟨_, s'⟩ ⟨rfl, hr'⟩
      refine (refines_same _).bind ?_
      rintro buffer' _ rfl
      dsimp only
      split
      · exact refines_ok (.leave ⟨rfl, .same buffer' 0 0 hr'⟩)
      · exact refines_ok (.again (.same _ _ (.same buffer' 0 _ hr')))
  · refine (refines_same _).bind ?_
    rintro part _ rfl
    exact refines_ok (.leave ⟨rfl, .same buffer _ _ hr⟩)

theorem read_refines (h : InStream.Simulates most R first second) (hp : 0 < size)
    (hs : size ≤ most) (fuel : Nat) {b : BufferedInStream ρ} {b' : BufferedInStream σ}
    (hb : Over size R b b') (count : Nat) :
    Refines (Alike (Over size R)) (read first fuel b count) (read second fuel b' count) := by
  have hne : ¬ b.bufferSize = 0 ∧ ¬ b'.bufferSize = 0 := by
    cases hb
    exact ⟨Nat.pos_iff_ne_zero.mp hp, Nat.pos_iff_ne_zero.mp hp⟩
  unfold BufferedInStream.read
  rw [if_neg hne.1, if_neg hne.2]
  exact refines_loop (readPass_refines h hs) fuel (.same count [] hb)

theorem seekOn_refines (h : InStream.Simulates most R first second) (hp : 0 < size)
    (hs : size ≤ most) (fuel : Nat) {b : BufferedInStream ρ} {b' : BufferedInStream σ}
    (hb : Over size R b b') (distance : Nat) :
    Refines (Alike (Over size R)) (seekOn first fuel b distance)
      (seekOn second fuel b' distance) := by
  unfold seekOn
  split
  · exact refines_ok ⟨rfl, hb⟩
  · refine refines_loop (R := fun p p' => p'.2 = p.2 ∧ Over size R p.1 p'.1) ?_ fuel ⟨rfl, hb⟩
    rintro ⟨b, distance⟩ ⟨b', _⟩ ⟨rfl, hb⟩
    have hsize : b'.bufferSize = b.bufferSize := by
      cases hb
      rfl
    unfold seekPass
    dsimp only
    split
    · rw [hsize]
      refine (read_refines h hp hs fuel hb _).bind ?_
      rintro ⟨res, b⟩ ⟨_, b'⟩ ⟨rfl, hb⟩
      dsimp only
      split
      · exact refines_ok (.leave ⟨rfl, hb⟩)
      · exact refines_ok (.again ⟨rfl, hb⟩)
    · exact refines_ok (.leave ⟨rfl, hb⟩)

theorem seek_refines (h : InStream.Simulates most R first second) (hp : 0 < size)
    (hs : size ≤ most) (fuel : Nat) {b : BufferedInStream ρ} {b' : BufferedInStream σ}
    (hb : Over size R b b') (distance : Nat) (whence : StreamWhence) :
    Refines (Alike (Over size R)) (seek first fuel b distance whence)
      (seek second fuel b' distance whence) := by
  cases whence with
  | current => exact seekOn_refines h hp hs fuel hb distance
  | begin =>
    obtain ⟨buffer, pos, data, hr⟩ := hb
    refine (h.seek hr 0 (by decide) .begin).bind ?_
    rintro ⟨ok, i'⟩ ⟨_, s'⟩ ⟨rfl, hr'⟩
    dsimp only
    split
    · exact seekOn_refines h hp hs fuel (.same buffer 0 0 hr') distance
    · exact refines_ok ⟨rfl, .same buffer pos data hr'⟩

/-- Buffering two streams in the same way keeps that one simulates the other. -/
theorem buffered_simulates (h : InStream.Simulates most R first second) (hp : 0 < size)
    (hs : size ≤ most) (fuel k : Nat) :
    InStream.Simulates k (Over size R) (inStream first fuel) (inStream second fuel) := by
  refine ⟨?_, fun hb n _ => read_refines h hp hs fuel hb n,
    fun hb n _ whence => seek_refines h hp hs fuel hb n whence⟩
  rintro b b' ⟨buffer, pos, data, hr⟩
  exact congrArg (· && _) (h.ended hr)

end

section
open BufferedInStream Cursor
variable {σ : Type} {src : InStream σ} {content : List Byte} {pos : σ → Nat}

/-- One buffer over a source that serves its content simulates the cursor,
however the source fragments its reads. -/
theorem serves_simulates (h : Serves src content pos) {fuel : Nat} (hf : content.length < fuel)
    (most reach : Nat) :
    InStream.Simulates most (fun (c : Fin (content.length + 1)) b =>
        BufferedIn.Holds content pos b c.val)
      (Cursor.inStream content reach) (BufferedInStream.inStream src fuel) := by
  constructor
  · intro c b hb
    exact BufferedIn.end_iff h hb
  · intro c b hb n _ a ha
    cases ha
    obtain ⟨b', hread, hb'⟩ := BufferedIn.read_delivers h hb hf n
    exact ⟨_, hread, rfl, hb'⟩
  · rintro c b hb n hn whence ⟨_, c'⟩ ha
    obtain ⟨htarget, -, rfl, hc⟩ := seek_answers ha
    obtain ⟨b', hseek, hb'⟩ := BufferedIn.seek_targets h hb hf hn whence htarget
    rw [← hc] at hb'
    exact ⟨_, hseek, rfl, hb'⟩

end

end CkCore.Proofs.Layers
