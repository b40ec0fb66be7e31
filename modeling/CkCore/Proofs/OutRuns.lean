import CkCore.Proofs.BufferedOut
import CkCore.Spec.Streams

namespace CkCore.Proofs.OutRuns
open Lib BufferedOutStream BufferedOut

/-- A buffered stream in use: everything passed to write so far, and what of it
the returned counts reported as written. -/
structure Client (τ : Type) where
  self : BufferedOutStream τ
  given : List Byte
  claimed : List Byte

inductive OutCall where
  | write (data : List Byte)
  | flush

section
variable {τ : Type}

def start (t : τ) (size : Nat) : Client τ := ⟨init t size, [], []⟩

def perform (out : OutStream τ) (fuel : Nat) (s : Client τ) : OutCall → Except Fault (Client τ)
  | .write data => do
    let (r, self) ← write out fuel s.self data
    return ⟨self, s.given ++ data, s.claimed ++ reported r data⟩
  | .flush => do
    let (_, self) ← flush out s.self
    return { s with self := self }

/-- All sequences of write and flush calls on a fresh buffered stream. -/
def clients (out : OutStream τ) (t : τ) (size : Nat) : System (Client τ) OutCall where
  init s := s = start t size
  step s c s' := ∃ fuel, perform out fuel s c = .ok s'

/-- The position after the write is a 32-bit word. -/
def inWord (s : Client τ) : OutCall → Prop
  | .write data => s.self.bufferPos + data.length < word
  | .flush => True

/-- The count passed to write is a 32-bit word, which is all its type says. -/
def counted (_ : Client τ) : OutCall → Prop
  | .write data => data.length < word
  | .flush => True

instance (s : Client τ) (c : OutCall) : Decidable (inWord s c) :=
  match c with
  | .write _ => inferInstanceAs (Decidable (_ < _))
  | .flush => isTrue trivial

/-- The sink accepts every full block the write has to hand on. -/
def accepted (out : OutStream τ) (s : Client τ) : OutCall → Prop
  | .write data => s.self.bufferPos + data.length < word ∧
      out.takes s.self.stream (due s.self data)
  | .flush => True

/-- What every run whose blocks are all accepted keeps: nothing reported is
missing, and everything was reported. -/
structure Sound (received : τ → List Byte) (t : τ) (size : Nat) (s : Client τ) : Prop where
  fits : Fits s.self
  size : s.self.bufferSize = size
  given : s.claimed = s.given
  holds : received s.self.stream ++ pending s.self = received t ++ s.claimed

variable {out : OutStream τ} {received : τ → List Byte} {t : τ} {size : Nat} {s s' : Client τ}

theorem start_sound (hs : 1 ≤ size) (hw : size < word) : Sound received t size (start t size) := by
  have hne : ¬ size = 0 := by omega
  refine ⟨init_fits hs hw, by simp [start, init, hne], rfl, ?_⟩
  simp [start, init, pending]

theorem reported_all (data : List Byte) : reported data.length data = data := by
  have hne : ¬ ((data.length : Nat) : Int) = -1 := by omega
  simp [reported, hne]

/-- A flush hands on exactly the pending bytes. -/
theorem flush_writes {b : BufferedOutStream τ} (hb : Fits b) {r : Int} {t' : τ}
    (hw : out.write b.stream (pending b) = .ok (r, t')) :
    flush out b = .ok (r, if r = -1 then { b with stream := t' }
      else { b with stream := t', bufferPos := 0 }) := by
  have hne : ¬ b.bufferSize = 0 := by have := hb.positive; omega
  have hload : load b.buffer 0 b.bufferPos = .ok (pending b) := by
    rw [load_ok (by have := hb.inside; have := hb.room; omega), List.drop_zero]
    rfl
  simp only [flush, hne, ↓reduceIte, hload, ok_bind, hw]
  split <;> rfl

/-- An accepted flush empties the buffer into the sink. -/
theorem flush_accepted {b : BufferedOutStream τ} (hb : Fits b) {t' : τ}
    (hw : out.write b.stream (pending b) = .ok ((pending b).length, t')) :
    flush out b = .ok (b.bufferPos, { b with stream := t', bufferPos := 0 }) := by
  have hret : ¬ (((pending b).length : Nat) : Int) = -1 := by omega
  rw [flush_writes hb hw, if_neg hret, hb.pending_length]

/-- A flush over an all-or-nothing sink moves bytes or leaves everything alone. -/
theorem flush_outcome (ho : AllOrNothing out received) {b : BufferedOutStream τ} (hb : Fits b) :
    ∃ r b', flush out b = .ok (r, b') ∧ Fits b' ∧ b'.bufferSize = b.bufferSize ∧
      received b'.stream ++ pending b' = received b.stream ++ pending b ∧
      (r = -1 ∨ pending b' = []) := by
  rcases ho b.stream (pending b) with ⟨t', hw, hr⟩ | ⟨t', hw, hr⟩
  · refine ⟨-1, { b with stream := t' }, (flush_writes hb hw).trans (by rw [if_pos rfl]),
      ⟨hb.room, hb.positive, hb.small, hb.inside⟩, rfl, ?_, Or.inl rfl⟩
    rw [hr]
    rfl
  · refine ⟨b.bufferPos, _, flush_accepted hb hw,
      ⟨hb.room, hb.positive, hb.small, Nat.zero_le _⟩, rfl, ?_, Or.inr rfl⟩
    rw [hr]
    simp [pending]

theorem perform_sound (ho : AllOrNothing out received) (h : Sound received t size s)
    {c : OutCall} (hc : accepted out s c) {fuel : Nat} (hs : perform out fuel s c = .ok s') :
    Sound received t size s' := by
  cases c with
  | write data =>
    obtain ⟨⟨r, self⟩, hw, hs⟩ := bind_ok hs
    cases hs
    obtain ⟨hno, hout | hout⟩ := write_outcome ho h.fits (by have := hc.1; omega) hw
    · have hr : reported r data = data := by
        rw [show r = data.length from hout.count, reported_all]
      refine ⟨hout.fits, hout.size.trans h.size, ?_, ?_⟩
      · rw [hr, h.given]
      · rw [hout.holds ho, h.holds, hr, List.append_assoc]
    · exact absurd hc.2 hout.not_takes
  | flush =>
    obtain ⟨r, self, hf, hfits, hsize, hholds, _⟩ := flush_outcome ho h.fits
    simp only [perform, hf, ok_bind, pure_ok, Except.ok.injEq] at hs
    subst hs
    exact ⟨hfits, hsize.trans h.size, h.given, hholds.trans h.holds⟩

theorem reached_sound (ho : AllOrNothing out received) (hs : 1 ≤ size) (hw : size < word)
    (h : (clients out t size).Reached (accepted out) s) : Sound received t size s := by
  refine h.invariant (P := Sound received t size) ?_ ?_
  · intro s he
    exact he ▸ start_sound hs hw
  · intro s c s' hsound hc hstep
    obtain ⟨fuel, hstep⟩ := hstep
    exact perform_sound ho hsound hc hstep

/-- Over a sink that accepts everything the buffered stream delivers everything
in order, in blocks of exactly its size, and reports every write in full. -/
theorem accepting_sink_gets_all (h : AcceptsAll out received) (hs : 1 ≤ size) (hw : size < word)
    {s : Client (τ × List (List Byte))}
    (hr : (clients out.recorded (t, []) size).Reached inWord s) :
    received s.self.stream.1 ++ pending s.self = received t ++ s.given ∧
    s.self.bufferPos ≤ size ∧
    (∀ data fuel, s.self.bufferPos + data.length < word → s.self.bufferPos + data.length < fuel →
      ∃ self, write out.recorded fuel s.self data = .ok (data.length, self) ∧
        ∃ blocks, self.stream.2 = s.self.stream.2 ++ blocks ∧
          ∀ block ∈ blocks, block.length = size) ∧
    ∃ r self, flush out.recorded s.self = .ok (r, self) ∧
      received self.stream.1 = received t ++ s.given := by
  have hrec := h.recorded
  have ho := hrec.all_or_nothing
  have hsound : Sound (fun p => received p.1) (t, []) size s := by
    refine reached_sound ho hs hw (hr.mono ?_)
    intro s c hc
    cases c with
    | write data => exact ⟨hc, hrec.takes _ _⟩
    | flush => trivial
  have hholds := hsound.given ▸ hsound.holds
  refine ⟨hholds, hsound.size ▸ hsound.fits.inside, ?_, ?_⟩
  · intro data fuel hno hf
    obtain ⟨⟨r, self⟩, hrun, hout | hout⟩ := write_returns ho hsound.fits hno fuel hf
    · have hcount := hout.count
      dsimp only at hcount
      subst hcount
      exact ⟨self, hrun, due s.self data, hout.took.recorded,
        hsound.size ▸ spills_length s.self.bufferSize _⟩
    · exact absurd (hrec.takes _ _) hout.not_takes
  · obtain ⟨p, hwrite, hp⟩ := hrec s.self.stream (pending s.self)
    exact ⟨_, _, flush_accepted hsound.fits hwrite, hp.trans hholds⟩

/-- While the sink accepts the blocks it is handed, no byte reported as written
is lost. The first write of which it refuses a block, or that runs over the
word, breaks this: there is no other way to lose a byte. -/
theorem reported_kept_iff (ho : AllOrNothing out received) (hs : 1 ≤ size) (hw : size < word)
    (hr : (clients out t size).Reached (accepted out) s) :
    received s.self.stream ++ pending s.self = received t ++ s.claimed ∧
    ∀ data, data.length < word →
      ((∃ fuel s', perform out fuel s (.write data) = .ok s' ∧
        received s'.self.stream ++ pending s'.self = received t ++ s'.claimed) ↔
        accepted out s (.write data)) := by
  have hsound := reached_sound ho hs hw hr
  refine ⟨hsound.holds, ?_⟩
  intro data hdata
  constructor
  · rintro ⟨fuel, s', hrun, hholds⟩
    obtain ⟨⟨r, self⟩, hwrite, hs'⟩ := bind_ok hrun
    cases hs'
    obtain ⟨hno, hout | hout⟩ := write_outcome ho hsound.fits hdata hwrite
    · exact ⟨hno, hout.takes⟩
    · obtain ⟨_, k, hkept, hk, hlost⟩ := hout.loses ho hdata
      dsimp only at hkept hlost hholds
      have hlen := congrArg List.length (hkept.symm.trans hholds)
      rw [hsound.holds] at hlen
      simp only [List.length_append, List.length_take] at hlen
      omega
  · intro hacc
    obtain ⟨⟨r, self⟩, hrun, _⟩ := write_returns ho hsound.fits hacc.1 word hacc.1
    have hperform : perform out word s (.write data) =
        .ok ⟨self, s.given ++ data, s.claimed ++ reported r data⟩ := by
      simp [perform, hrun]
    exact ⟨word, _, hperform, (perform_sound ho hsound hacc hperform).holds⟩

/-- Over a sink that accepts everything a call that returned was accepted. -/
theorem returned_accepted (h : AcceptsAll out received) (hsound : Sound received t size s)
    {c : OutCall} (hc : counted s c) {fuel : Nat} (hs : perform out fuel s c = .ok s') :
    accepted out s c := by
  cases c with
  | write data =>
    obtain ⟨⟨r, self⟩, hwrite, _⟩ := bind_ok hs
    obtain ⟨hno, _⟩ := write_outcome h.all_or_nothing hsound.fits hc hwrite
    exact ⟨hno, h.takes _ _⟩
  | flush => trivial

theorem counted_sound (h : AcceptsAll out received) (hs : 1 ≤ size) (hw : size < word)
    (hr : (clients out t size).Reached counted s) : Sound received t size s := by
  refine hr.invariant (P := Sound received t size) ?_ ?_
  · intro s he
    exact he ▸ start_sound hs hw
  · intro s c s' hsound hc hstep
    obtain ⟨fuel, hstep⟩ := hstep
    exact perform_sound h.all_or_nothing hsound (returned_accepted h hsound hc hstep) hstep

/-- In every state a client can bring the stream to, a write returns with all
its copies inside the two buffers unless its end runs over the word. -/
theorem write_safe_iff (h : AcceptsAll out received) (hs : 1 ≤ size) (hw : size < word)
    (hr : (clients out t size).Reached counted s) :
    s.self.buffer.length = size ∧ s.self.bufferPos ≤ size ∧
    ∀ data, data.length < word →
      ((∃ fuel res, write out fuel s.self data = .ok res) ↔
        s.self.bufferPos + data.length < word) := by
  have hsound := counted_sound h hs hw hr
  refine ⟨hsound.size ▸ hsound.fits.room, hsound.size ▸ hsound.fits.inside, ?_⟩
  intro data hdata
  constructor
  · rintro ⟨fuel, res, hwrite⟩
    exact (write_outcome h.all_or_nothing hsound.fits hdata hwrite).1
  · intro hno
    obtain ⟨res, hwrite, _⟩ := write_returns h.all_or_nothing hsound.fits hno word hno
    exact ⟨word, res, hwrite⟩

end

/-- Five bytes through a buffer of four: the full block goes out when the fifth
byte comes, and that one arrives with the flush. -/
theorem accepting_sink_gets_five :
    ∃ r self, flush collector.recorded ⟨([1, 2, 3, 4], [[1, 2, 3, 4]]), [5, 2, 3, 4], 4, 1⟩ =
        .ok (r, self) ∧ self.stream.1 = [1, 2, 3, 4, 5] :=
  (accepting_sink_gets_all (t := []) (s := ⟨⟨([1, 2, 3, 4], [[1, 2, 3, 4]]), [5, 2, 3, 4], 4, 1⟩,
      [1, 2, 3, 4, 5], [1, 2, 3, 4, 5]⟩)
    collector_accepts (show 1 ≤ 4 by decide) (by decide)
    (.next (e := .write [1, 2, 3, 4, 5]) (.start rfl) (by decide) ⟨20, by rfl⟩)).2.2.2

/-- Two bytes into a buffer of four: five more bytes have one full block due,
which the sink refuses, so exactly that write is unsafe. -/
theorem reported_kept_two :
    ¬ ∃ fuel s', perform scripted fuel ⟨⟨([false], []), [1, 2, 0, 0], 4, 2⟩, [1, 2], [1, 2]⟩
        (.write [3, 4, 5, 6, 7]) = .ok s' ∧
      s'.self.stream.2 ++ pending s'.self = [] ++ s'.claimed := by
  have hreached : (clients scripted ([false], []) 4).Reached (accepted scripted)
      ⟨⟨([false], []), [1, 2, 0, 0], 4, 2⟩, [1, 2], [1, 2]⟩ := by
    refine .next (e := .write [1, 2]) (.start rfl) ⟨by decide, ?_⟩ ⟨20, by rfl⟩
    rw [due, spills_short (by decide)]
    trivial
  have hiff := (reported_kept_iff scripted_all_or_nothing (by decide) (by decide)
    hreached).2 [3, 4, 5, 6, 7] (by decide)
  rw [hiff]
  rintro ⟨_, htakes⟩
  rw [due, spills_long (by decide) (by decide)] at htakes
  obtain ⟨t', hwrite, _⟩ := htakes
  cases hwrite

/-- A refused block: after two bytes the next five are answered with a count of
two, but neither sink nor buffer holds these two. -/
theorem refused_block_loses_bytes :
    ∃ s, (clients scripted ([false], []) 4).Reached inWord s ∧
      s.claimed = [1, 2, 3, 4] ∧ s.self.stream.2 ++ pending s.self = [1, 2] ∧
      s.self.stream.2 ++ pending s.self ≠ s.claimed := by
  have first : (clients scripted ([false], []) 4).Reached inWord
      ⟨⟨([false], []), [1, 2, 0, 0], 4, 2⟩, [1, 2], [1, 2]⟩ :=
    .next (e := .write [1, 2]) (.start rfl) (by decide) ⟨20, by rfl⟩
  refine ⟨⟨⟨([], []), [1, 2, 3, 4], 4, 2⟩, [1, 2, 3, 4, 5, 6, 7], [1, 2, 3, 4]⟩, ?_, rfl, rfl,
    by decide⟩
  exact .next (e := .write [3, 4, 5, 6, 7]) first (by decide) ⟨20, by rfl⟩

/-- One byte pending in a buffer of four: a write of four more is safe. -/
theorem write_safe_four :
    ∃ fuel res, write collector fuel ⟨[], [1, 0, 0, 0], 4, 1⟩ [2, 3, 4, 5] = .ok res :=
  ((write_safe_iff (t := []) (s := ⟨⟨[], [1, 0, 0, 0], 4, 1⟩, [1], [1]⟩) collector_accepts
    (show 1 ≤ 4 by decide) (by decide)
    (.next (e := .write [1]) (.start rfl) (by simp [counted, word]) ⟨20, by rfl⟩)).2.2
    [2, 3, 4, 5] (by decide)).mpr (by decide)

/-- One byte pending in a buffer of four: the sum of the position and the count
2^32 - 1 is zero as a word, so nothing is spilled and the copy leaves the buffer. -/
theorem wrapped_write_leaves_buffer :
    ∃ s, (clients collector [] 4).Reached counted s ∧ s.self.bufferPos ≤ 4 ∧
      ∃ data, data.length < word ∧ ∀ fuel,
        write collector (fuel + 1) s.self data = .error .outOfBounds := by
  have hreached : (clients collector [] 4).Reached counted
      ⟨⟨[], [1, 0, 0, 0], 4, 1⟩, [1], [1]⟩ :=
    .next (e := .write [1]) (.start rfl) (by simp [counted, word]) ⟨20, by rfl⟩
  have hlength : (List.replicate (word - 1) (0 : Byte)).length = word - 1 :=
    List.length_replicate
  refine ⟨_, hreached, by decide, List.replicate (word - 1) 0, by rw [hlength]; decide, ?_⟩
  intro fuel
  have hfits := (counted_sound collector_accepts (by decide) (by decide) hreached).fits
  exact write_outside hfits (by rw [hlength]; decide) (by rw [hlength]; decide) fuel

end CkCore.Proofs.OutRuns
