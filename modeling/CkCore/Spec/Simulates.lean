import CkCore.Lib.Refines
import CkCore.Model.BufferedStream
import CkCore.Spec.Cursor
import CkCore.Spec.Streams

namespace CkCore
open Lib

section
variable {ρ σ τ : Type}

/-- From related states on, whatever the first stream answers to a call the
second answers too. Reads are compared up to `most` bytes at a time, distances
are 32-bit words. -/
structure InStream.Simulates (most : Nat) (R : ρ → σ → Prop) (first : InStream ρ)
    (second : InStream σ) : Prop where
  ended : ∀ {i s}, R i s → second.end s = first.end i
  read : ∀ {i s}, R i s → ∀ n, n ≤ most → Refines (Alike R) (first.read i n) (second.read s n)
  seek : ∀ {i s}, R i s → ∀ n, n < word → ∀ whence,
    Refines (Alike R) (first.seek i n whence) (second.seek s n whence)

/-- Simulations compose along the composition of their relations. -/
theorem InStream.Simulates.trans {most : Nat} {R : ρ → σ → Prop} {S : σ → τ → Prop}
    {first : InStream ρ} {second : InStream σ} {third : InStream τ}
    (h : Simulates most R first second) (h' : Simulates most S second third) :
    Simulates most (fun i t => ∃ s, R i s ∧ S s t) first third := by
  have alike : ∀ {α : Type} (p : α × ρ) (q : α × τ),
      (∃ b : α × σ, Alike R p b ∧ Alike S b q) → Alike (fun i t => ∃ s, R i s ∧ S s t) p q :=
    fun _ _ ⟨b, hp, hq⟩ => ⟨hp.1.trans hq.1, b.2, hp.2, hq.2⟩
  constructor
  · rintro i t ⟨s, hr, hs⟩
    exact (h'.ended hs).trans (h.ended hr)
  · rintro i t ⟨s, hr, hs⟩ n hn
    exact ((h.read hr n hn).trans (h'.read hs n hn)).mono alike
  · rintro i t ⟨s, hr, hs⟩ n hn whence
    exact ((h.seek hr n hn whence).trans (h'.seek hs n hn whence)).mono alike

/-- The arguments of the call are words, and no read is longer than `most`. -/
def Call.within (most : Nat) : Call → Prop
  | .read count => count ≤ most
  | .end => True
  | .seek distance _ => distance < word

/-- A client cannot tell a stream from one that simulates it. -/
theorem InStream.Simulates.calls {most : Nat} {R : ρ → σ → Prop} {first : InStream ρ}
    {second : InStream σ} (h : Simulates most R first second) {i : ρ} {s : σ} (hr : R i s)
    {cs : List Call} (hcs : ∀ c ∈ cs, c.within most) {answers : List Answer}
    (ha : first.calls i cs = .ok answers) : second.calls s cs = .ok answers := by
  induction cs generalizing i s answers with
  | nil => exact ha
  | cons c cs ih =>
    have hcall : Refines (Alike R) (first.call i c) (second.call s c) := by
      have hc := hcs c List.mem_cons_self
      cases c with
      | read count =>
        refine (h.read hr count hc).bind fun p q hpq => refines_ok ?_
        exact ⟨congrArg Answer.read hpq.1, hpq.2⟩
      | «end» => exact refines_ok ⟨congrArg Answer.flag (h.ended hr).symm, hr⟩
      | seek distance whence =>
        refine (h.seek hr distance hc whence).bind fun p q hpq => refines_ok ?_
        exact ⟨congrArg Answer.flag hpq.1, hpq.2⟩
    obtain ⟨⟨a, i'⟩, hfirst, ha⟩ := bind_ok ha
    obtain ⟨rest, hrest, ha⟩ := bind_ok ha
    cases ha
    obtain ⟨⟨a', s'⟩, hsecond, heq, hr'⟩ := hcall _ hfirst
    dsimp only at heq hr'
    subst heq
    simp [InStream.calls, hsecond, ih hr' (fun c hc => hcs c (List.mem_cons_of_mem _ hc)) hrest]

/-- A write the first sink takes in full the second takes too, up to `most`
bytes at a time. -/
def OutStream.Simulates (most : Nat) (R : ρ → σ → Prop) (first : OutStream ρ)
    (second : OutStream σ) : Prop :=
  ∀ i s, R i s → ∀ data : List Byte, data.length ≤ most →
    Refines (Alike R) (first.write i data) (second.write s data)

end

namespace Cursor

/-- The cursor as a stream. Seeks past the end, or out of reach, are left open. -/
def inStream (content : List Byte) (reach : Nat) : InStream (Fin (content.length + 1)) where
  read s count := .ok (⟨(slice content s.val count).length, slice content s.val count⟩,
    ⟨s.val + (slice content s.val count).length, by
      have := slice_length content s.val count
      omega⟩)
  size _ := content.length
  «end» s := s.val == content.length
  seek s distance whence :=
    if h : target s.val distance whence < content.length + 1 ∧
        target s.val distance whence ≤ reach then
      .ok (true, ⟨target s.val distance whence, h.1⟩)
    else .error .outOfBounds

/-- What an answered seek does. -/
theorem seek_answers {content : List Byte} {reach distance : Nat} {whence : StreamWhence}
    {s : Fin (content.length + 1)} {a : Bool × Fin (content.length + 1)}
    (h : (inStream content reach).seek s distance whence = .ok a) :
    target s.val distance whence ≤ content.length ∧ target s.val distance whence ≤ reach ∧
      a.1 = true ∧ a.2.val = target s.val distance whence := by
  by_cases hd : target s.val distance whence < content.length + 1 ∧
      target s.val distance whence ≤ reach
  · have hok : (inStream content reach).seek s distance whence = .ok (true, ⟨_, hd.1⟩) :=
      dif_pos hd
    rw [hok] at h
    cases h
    exact ⟨Nat.le_of_lt_succ hd.1, hd.2, rfl, rfl⟩
  · have hfail : (inStream content reach).seek s distance whence = .error .outOfBounds :=
      dif_neg hd
    rw [hfail] at h
    cases h

theorem inStream_serves (content : List Byte) (reach : Nat) :
    Serves (inStream content reach) content Fin.val := by
  refine ⟨fun s => by omega, fun s => by simp [inStream], ?_, ?_⟩
  · intro s n hs hn
    have hlength := slice_length content s.val n
    refine ⟨slice content s.val n, _, rfl, by omega, by omega, List.take_prefix _ _, rfl⟩
  · intro s
    exact ⟨0, by simp [inStream, target], rfl⟩

theorem inStream_exact (content : List Byte) :
    Exact (inStream content content.length) content Fin.val := by
  have seek : ∀ (s : Fin (content.length + 1)) n whence,
      target s.val n whence ≤ content.length →
        ∃ s' : Fin (content.length + 1),
          (inStream content content.length).seek s n whence = .ok (true, s') ∧
            s'.val = target s.val n whence := by
    intro s n whence hn
    exact ⟨⟨_, Nat.lt_succ_of_le hn⟩, dif_pos ⟨Nat.lt_succ_of_le hn, hn⟩, rfl⟩
  refine ⟨fun s => by omega, fun s => by simp [inStream], ?_, fun s n hn => seek s n .begin hn,
    fun s n hn => seek s n .current hn⟩
  intro s n
  refine ⟨_, rfl, ?_⟩
  rw [List.drop_drop, List.drop_eq_drop_iff]
  have hlength := slice_length content s.val n
  dsimp only
  omega

theorem inStream_call {content : List Byte} {c : Call} {cs : List Call}
    {s : Fin (content.length + 1)} (h : Within content s.val (c :: cs)) :
    ∃ s', (inStream content content.length).call s c = .ok ((call content s.val c).1, s') ∧
      s'.val = (call content s.val c).2 := by
  cases c with
  | read count => exact ⟨_, rfl, rfl⟩
  | «end» => exact ⟨s, rfl, rfl⟩
  | seek distance whence =>
    have htarget := Nat.lt_succ_of_le h.1.2
    have hseek : (inStream content content.length).seek s distance whence =
        .ok (true, ⟨_, htarget⟩) := dif_pos ⟨htarget, h.1.2⟩
    refine ⟨⟨target s.val distance whence, htarget⟩, ?_, rfl⟩
    simp [InStream.call, hseek, call]

/-- The stream answers as the plain cursor does. -/
theorem inStream_calls {content : List Byte} {cs : List Call}
    {s : Fin (content.length + 1)} (h : Within content s.val cs) :
    (inStream content content.length).calls s cs = .ok (calls content s.val cs) := by
  induction cs generalizing s with
  | nil => rfl
  | cons c cs ih =>
    obtain ⟨s', hcall, hs⟩ := inStream_call h
    have hrest := h.2
    rw [← hs] at hrest
    simp [InStream.calls, hcall, ih hrest, calls, hs]

end Cursor

/-- A sink that collects what it is given, as long as it is no more than `total`
bytes altogether. -/
def gatherer (total : Nat) : OutStream (List Byte) where
  write t data :=
    if t.length + data.length ≤ total then .ok (data.length, t ++ data) else .error .outOfBounds

theorem gatherer_takes {total : Nat} {t data : List Byte} (h : t.length + data.length ≤ total) :
    (gatherer total).write t data = .ok (data.length, t ++ data) := if_pos h

/-- A sink that simulates a gatherer takes what there is room for. -/
theorem OutStream.Simulates.takes {σ : Type} {most total : Nat} {R : List Byte → σ → Prop}
    {out : OutStream σ} (h : OutStream.Simulates most R (gatherer total) out) {l data : List Byte}
    {t : σ} (hr : R l t) (hm : data.length ≤ most) (ht : l.length + data.length ≤ total) :
    ∃ t', out.write t data = .ok (data.length, t') ∧ R (l ++ data) t' := by
  obtain ⟨⟨n, t'⟩, hw, he, hr'⟩ := h l t hr data hm _ (gatherer_takes ht)
  dsimp only at he hr'
  subst he
  exact ⟨t', hw, hr'⟩

/-- The converse: a sink that takes what there is room for simulates the gatherer. -/
theorem gatherer_simulated {σ : Type} {most total : Nat} {R : List Byte → σ → Prop}
    {out : OutStream σ}
    (h : ∀ l t, R l t → ∀ data : List Byte, data.length ≤ most → l.length + data.length ≤ total →
      ∃ t', out.write t data = .ok (data.length, t') ∧ R (l ++ data) t') :
    OutStream.Simulates most R (gatherer total) out := by
  intro l t hr data hm p hp
  by_cases ht : l.length + data.length ≤ total
  · rw [gatherer_takes ht] at hp
    cases hp
    obtain ⟨t', hw, hr'⟩ := h l t hr data hm ht
    exact ⟨_, hw, rfl, hr'⟩
  · have hfail : (gatherer total).write l data = .error .outOfBounds := if_neg ht
    rw [hfail] at hp
    cases hp

/-- A sink that accepts everything simulates a gatherer of any size. -/
theorem AcceptsAll.simulates {σ : Type} {out : OutStream σ} {received : σ → List Byte}
    (h : AcceptsAll out received) (most total : Nat) :
    OutStream.Simulates most (fun l t => received t = l) (gatherer total) out := by
  refine gatherer_simulated ?_
  rintro l t rfl data _ _
  obtain ⟨t', hw, hr⟩ := h t data
  exact ⟨t', hw, hr⟩

end CkCore
