import CkCore.Proofs.BufferedFetch
import CkCore.Proofs.BufferedOut
import CkCore.Spec.Streams

namespace CkCore.Proofs.BufferedReports
open Lib BufferedFetch BufferedOut

section
open BufferedInStream
variable {σ : Type} {src : InStream σ} {b : BufferedInStream σ} {n need : Nat} {s s' : σ}
  {bytes : List Byte} {e : Ending}

/-- What read answers when it has copied `n` bytes. -/
def report (e : Ending) (n : Nat) : Int := if e = .failed then partialCount n else n

/-- Only a request that is not served is left by a failure or the end. -/
theorem fetched_short (h : src.Fetched n s need bytes e s') (he : e ≠ .full) :
    bytes.length < need := by
  induction h with
  | full => exact absurd rfl he
  | ended want last => exact want
  | failed want more read fail => exact want
  | more want more read rest ih =>
    have := ih he
    rw [List.length_append]
    omega

/-- The bytes a read copies: those held first, then those fetched. -/
theorem take_held {b : BufferedInStream σ} (h : Sound b) {count : Nat}
    (hn : b.bufferData < count) (bytes : List Byte) :
    (held b ++ bytes).take count = held b ++ bytes.take (count - b.bufferData) := by
  rw [List.take_append, h.held_length, List.take_of_length_le (by rw [h.held_length]; omega)]

/-- Fetching that comes to an end makes the loop of read return. -/
theorem loop_fetches (ht : Truthful src) (h : src.Fetched n s need bytes e s') {r : Reading σ}
    (hr : Sound r.self) (hsize : r.self.bufferSize = n) (hstream : r.self.stream = s)
    (hneed : r.count - r.self.bufferData = need) :
    ∃ k b', Sound b' ∧ ∀ fuel, k ≤ fuel → loop (readPass src) fuel r =
      .ok (⟨report e (r.copied ++ (held r.self ++ bytes).take r.count).length,
        r.copied ++ (held r.self ++ bytes).take r.count⟩, b') := by
  induction h generalizing r with
  | full s =>
    obtain ⟨b', hpass, hsound, _⟩ := pass_deliver src hr (by omega)
    refine ⟨1, b', hsound, ?_⟩
    intro fuel hfuel
    rw [loop_last hfuel hpass, List.append_nil]
    rfl
  | ended want last =>
    obtain ⟨b', hpass, hsound, _⟩ := pass_end hr (by omega) (hstream ▸ last)
    refine ⟨1, b', hsound, ?_⟩
    intro fuel hfuel
    rw [loop_last hfuel hpass, take_held hr (by omega), List.take_nil, List.append_nil]
    rfl
  | @failed s s' need res want more read fail =>
    subst hstream hsize
    obtain ⟨res', s'', hread, hlen, _⟩ := ht r.self.stream r.self.bufferSize
    rw [read] at hread
    cases hread
    obtain ⟨b', hpass, hsound, _⟩ := pass_fail hr (by omega) more read hlen fail
    refine ⟨1, b', hsound, ?_⟩
    intro fuel hfuel
    rw [loop_last hfuel hpass, take_held hr (by omega), List.take_nil, List.append_nil]
    rfl
  | @more s s' s'' need data bytes e want more read rest ih =>
    subst hstream hsize
    obtain ⟨res', s'', hread, hlen, _⟩ := ht r.self.stream r.self.bufferSize
    rw [read] at hread
    cases hread
    obtain ⟨r', hpass, hsound, hsize', hstream', hheld, hcount, hcopied⟩ :=
      pass_fetch hr (by omega) more read hlen
    have hdata : r'.self.bufferData = data.length := by rw [← hsound.held_length, hheld]
    obtain ⟨k, b', hsound', hloop⟩ := ih hsound hsize' hstream' (by omega)
    refine ⟨k + 1, b', hsound', ?_⟩
    intro fuel hfuel
    rw [loop_next (by omega) hpass, hloop (fuel - 1) (by omega), hcopied, hheld, hcount,
      take_held hr (by omega), List.append_assoc]

/-- A loop of read that returns has come to the end of its fetching. -/
theorem loop_fetched (ht : Truthful src) {fuel : Nat} {r : Reading σ} (hr : Sound r.self)
    {res : ReadResult × BufferedInStream σ} (h : loop (readPass src) fuel r = .ok res) :
    ∃ bytes e s', src.Fetched r.self.bufferSize r.self.stream (r.count - r.self.bufferData)
      bytes e s' := by
  induction fuel generalizing r with
  | zero => cases h
  | succ fuel ih =>
    by_cases hn : r.count ≤ r.self.bufferData
    · rw [Nat.sub_eq_zero_of_le hn]
      exact ⟨[], .full, _, .full _⟩
    · have hn : r.self.bufferData < r.count := by omega
      have want : 0 < r.count - r.self.bufferData := by omega
      cases he : src.end r.self.stream with
      | true => exact ⟨[], .ended, _, .ended want he⟩
      | false =>
        obtain ⟨⟨ret, data⟩, s', hread, hlen, hret | hret⟩ := ht r.self.stream r.self.bufferSize
        · exact ⟨[], .failed, s', .failed want he hread hret⟩
        · obtain rfl : ret = data.length := hret
          obtain ⟨r', hpass, hsound, hsize, hstream, hheld, hcount, _⟩ :=
            pass_fetch hr hn he hread hlen
          rw [loop_again hpass] at h
          obtain ⟨bytes, e, s'', hrest⟩ := ih hsound h
          have hdata : r'.self.bufferData = data.length := by rw [← hsound.held_length, hheld]
          rw [hsize, hstream, hcount, hdata] at hrest
          exact ⟨_, e, s'', .more want he hread hrest⟩

/-- What a returned read copied and answered. -/
theorem read_outcome (ht : Truthful src) (hb : Sound b) {fuel count : Nat} {res : ReadResult}
    {b' : BufferedInStream σ} (h : b.read src fuel count = .ok (res, b')) :
    ∃ bytes e s', src.Fetched b.bufferSize b.stream (count - b.bufferData) bytes e s' ∧
      res.data = (held b ++ bytes).take count ∧ res.ret = report e res.data.length ∧ Sound b' := by
  have hne : ¬ b.bufferSize = 0 := by have := hb.positive; omega
  unfold BufferedInStream.read at h
  rw [if_neg hne] at h
  obtain ⟨bytes, e, s', hf⟩ := loop_fetched ht hb h
  obtain ⟨k, b'', hsound, hloop⟩ := loop_fetches (r := ⟨b, count, []⟩) ht hf hb rfl rfl rfl
  have hboth := loop_mono h (show fuel ≤ fuel + k by omega)
  rw [hloop (fuel + k) (by omega)] at hboth
  cases hboth
  exact ⟨bytes, e, s', hf, rfl, rfl, hsound⟩

theorem read_ne (ht : Truthful src) (hb : Sound b) {fuel count : Nat} {res : ReadResult}
    {b' : BufferedInStream σ} (h : b.read src fuel count = .ok (res, b')) : res.ret ≠ -1 := by
  obtain ⟨bytes, e, s', _, _, hret, _⟩ := read_outcome ht hb h
  rw [hret]
  unfold report
  split
  · exact partialCount_ne _
  · omega

/-- Nothing is held, and a read of the source fails before any byte came. -/
def FailsFirst (src : InStream σ) (b : BufferedInStream σ) (count : Nat) : Prop :=
  b.bufferData = 0 ∧ ∃ s', src.Fetched b.bufferSize b.stream count [] .failed s'

/-- read returns when the source comes to an end of the request, and answers -1
when it failed before any byte, else the number of bytes copied. -/
structure ReadReports (src : InStream σ) (b : BufferedInStream σ) (count : Nat) : Prop where
  returns : (∃ bytes e s', src.Fetched b.bufferSize b.stream (count - b.bufferData) bytes e s') →
    ∃ k res, ∀ fuel, k ≤ fuel → b.read src fuel count = .ok res
  answer : ∀ fuel res b', b.read src fuel count = .ok (res, b') →
    res.data.length ≤ count ∧ (FailsFirst src b count → res.ret = -1) ∧
      (¬ FailsFirst src b count → res.ret = res.data.length)

theorem read_returns (ht : Truthful src) (hb : Sound b) {count : Nat}
    (h : src.Fetched b.bufferSize b.stream (count - b.bufferData) bytes e s') :
    ∃ k res, ∀ fuel, k ≤ fuel → b.read src fuel count = .ok res := by
  have hne : ¬ b.bufferSize = 0 := by have := hb.positive; omega
  obtain ⟨k, b', _, hloop⟩ := loop_fetches (r := ⟨b, count, []⟩) ht h hb rfl rfl rfl
  refine ⟨k, (⟨report e ((held b ++ bytes).take count).length,
    (held b ++ bytes).take count⟩, b'), ?_⟩
  intro fuel hfuel
  unfold BufferedInStream.read
  rw [if_neg hne]
  exact hloop fuel hfuel

/-- read reports as documented unless the source fails before any byte. -/
theorem read_reports_iff (ht : Truthful src) (hb : Sound b) (count : Nat) :
    ReadReports src b count ↔ ¬ FailsFirst src b count := by
  constructor
  · intro h hfails
    obtain ⟨hdata, s', hf⟩ := hfails
    obtain ⟨k, ⟨res, b'⟩, hrun⟩ := h.returns ⟨[], .failed, s', by rw [hdata]; exact hf⟩
    have hret := (h.answer k res b' (hrun k (Nat.le_refl k))).2.1 ⟨hdata, s', hf⟩
    exact read_ne ht hb (hrun k (Nat.le_refl k)) hret
  · intro hno
    refine ⟨fun ⟨bytes, e, s', hf⟩ => read_returns ht hb hf, ?_⟩
    intro fuel res b' hrun
    obtain ⟨bytes, e, s', hf, hdata, hret, _⟩ := read_outcome ht hb hrun
    refine ⟨?_, fun hfails => absurd hfails hno, fun _ => ?_⟩
    · rw [hdata]
      exact List.length_take_le _ _
    · rw [hret]
      unfold report
      split
      case isFalse => rfl
      case isTrue he =>
        subst he
        have hshort := fetched_short hf (by decide)
        have hlength : res.data.length = b.bufferData + bytes.length := by
          rw [hdata, List.length_take, List.length_append, hb.held_length]
          omega
        have hsome : ¬ res.data.length = 0 := by
          intro hzero
          have hnone : bytes = [] := List.length_eq_zero_iff.mp (by omega)
          have hempty : b.bufferData = 0 := by omega
          rw [hnone, hempty] at hf
          exact hno ⟨hempty, s', hf⟩
        exact if_neg hsome

/-- An underlying read fails before `distance` bytes behind the target of
`whence` are consumed. -/
def FailsOn (src : InStream σ) (b : BufferedInStream σ) (distance : Nat) : StreamWhence → Prop
  | .current => ∃ bytes s',
      src.Fetched b.bufferSize b.stream (distance - b.bufferData) bytes .failed s'
  | .begin => ∃ s₁, src.seek b.stream 0 .begin = .ok (true, s₁) ∧
      ∃ bytes s', src.Fetched b.bufferSize s₁ distance bytes .failed s'

/-- seek answers false when an underlying read fails too early. -/
def SeekReports (src : InStream σ) (b : BufferedInStream σ) (distance : Nat)
    (whence : StreamWhence) : Prop :=
  FailsOn src b distance whence →
    ∃ k b', ∀ fuel, k ≤ fuel → b.seek src fuel distance whence = .ok (false, b')

/-- The loop of seek never answers false, since no read answers -1. -/
theorem seekOn_ne (ht : Truthful src) (hb : Sound b) {fuel distance : Nat}
    {b' : BufferedInStream σ} : b.seekOn src fuel distance ≠ .ok (false, b') := by
  unfold seekOn
  split
  case isTrue =>
    intro h
    cases h
  case isFalse =>
    intro h
    obtain ⟨p, hpasses, hleft⟩ := loop_passes h
    have hsound : Sound p.1 := by
      refine hpasses.invariant (P := fun p => Sound p.1) ?_ hb
      rintro ⟨c, distance⟩ p' hc hpass
      unfold seekPass at hpass
      dsimp only at hpass
      split at hpass
      · obtain ⟨⟨res, c'⟩, hread, hpass⟩ := bind_ok hpass
        obtain ⟨_, _, _, _, _, _, hc'⟩ := read_outcome ht hc hread
        dsimp only at hpass
        split at hpass
        · cases hpass
        · cases hpass
          exact hc'
      · cases hpass
    obtain ⟨c, distance⟩ := p
    unfold seekPass at hleft
    dsimp only at hleft
    split at hleft
    · obtain ⟨⟨res, c'⟩, hread, hleft⟩ := bind_ok hleft
      dsimp only at hleft
      rw [if_neg (read_ne ht hsound hread)] at hleft
      cases hleft
    · cases hleft

/-- seek reports as documented only when no underlying read fails too early. -/
theorem seek_reports_iff (ht : Truthful src) (hb : Sound b) (distance : Nat)
    (whence : StreamWhence) :
    SeekReports src b distance whence ↔ ¬ FailsOn src b distance whence := by
  constructor
  · intro h hfails
    obtain ⟨k, b', hrun⟩ := h hfails
    have hseek := hrun k (Nat.le_refl k)
    cases whence with
    | current => exact seekOn_ne ht hb hseek
    | begin =>
      obtain ⟨s₁, hbegin, _⟩ := hfails
      unfold BufferedInStream.seek at hseek
      simp only [hbegin, ok_bind, if_true] at hseek
      have hstart : Sound { b with stream := s₁, bufferPos := 0, bufferData := 0 } :=
        ⟨hb.room, hb.positive, hb.small, Nat.zero_le _⟩
      exact seekOn_ne ht hstart hseek
  · exact fun hno hfails => absurd hfails hno

end

section
open BufferedOutStream
variable {τ : Type} {out : OutStream τ} {received : τ → List Byte} {b : BufferedOutStream τ}
  {data : List Byte}

/-- write answers how many bytes the stream and the buffer have taken over, or
-1 when that is none. -/
def WriteReports (out : OutStream τ) (received : τ → List Byte) (b : BufferedOutStream τ)
    (data : List Byte) : Prop :=
  ∃ k res n, (∀ fuel, k ≤ fuel → b.write out fuel data = .ok res) ∧ n ≤ data.length ∧
    received res.2.stream ++ pending res.2 = received b.stream ++ pending b ++ data.take n ∧
    (res.1 = n ∨ n = 0 ∧ res.1 = -1)

/-- write reports as documented just when nothing wraps and no block is refused. -/
theorem write_reports_iff (ho : AllOrNothing out received) (hb : Fits b)
    (hargs : data.length < word) : WriteReports out received b data ↔
      b.bufferPos + data.length < word ∧ out.takes b.stream (due b data) := by
  constructor
  · rintro ⟨k, res, n, hrun, hn, hall, hret⟩
    obtain ⟨hno, hw | hr⟩ := write_outcome ho hb hargs (hrun k (Nat.le_refl k))
    · exact ⟨hno, hw.takes⟩
    · exfalso
      obtain ⟨hne, m, hlost, hm, hreported⟩ := hr.loses ho hargs
      have htake := List.append_cancel_left (hall.symm.trans hlost)
      have hlength := congrArg List.length htake
      rw [List.length_take, List.length_take] at hlength
      rcases hret with hret | ⟨_, hret⟩
      · unfold reported at hreported
        rw [if_neg hne, hret, Int.toNat_natCast, List.length_take] at hreported
        omega
      · exact hne hret
  · rintro ⟨hno, htakes⟩
    obtain ⟨res, hrun, hw | hr⟩ :=
      write_returns ho hb hno (b.bufferPos + data.length + 1) (Nat.lt_succ_self _)
    · refine ⟨b.bufferPos + data.length + 1, res, data.length, ?_, Nat.le_refl _, ?_,
        Or.inl hw.count⟩
      · intro fuel hfuel
        have hne : ¬ b.bufferSize = 0 := by have := hb.positive; omega
        simp only [BufferedOutStream.write, hne, if_false] at hrun ⊢
        exact loop_mono hrun hfuel
      · rw [hw.holds ho, List.take_length]
    · exact absurd htakes hr.not_takes

end

/-- read reports as documented unless the source fails before any byte, write
just when nothing wraps and no block is refused, and seek only when no
underlying read fails too early. -/
theorem failures_reported_iff {σ τ : Type} {src : InStream σ} {out : OutStream τ}
    {received : τ → List Byte} (ht : Truthful src) (ho : AllOrNothing out received) :
    (∀ (b : BufferedInStream σ) count, Sound b →
      (ReadReports src b count ↔ ¬ FailsFirst src b count)) ∧
    (∀ (b : BufferedOutStream τ) (data : List Byte), Fits b → data.length < word →
      (WriteReports out received b data ↔
        b.bufferPos + data.length < word ∧ out.takes b.stream (due b data))) ∧
    ∀ (b : BufferedInStream σ) distance whence, Sound b →
      (SeekReports src b distance whence ↔ ¬ FailsOn src b distance whence) :=
  ⟨fun _ count hb => read_reports_iff ht hb count,
    fun _ _ hb hargs => write_reports_iff ho hb hargs,
    fun _ distance whence hb => seek_reports_iff ht hb distance whence⟩

/-- A read with a byte at hand, a write whose one block is accepted, and a seek
whose rewinding fails. -/
theorem failures_reported_three :
    ReadReports scriptedIn ⟨([none], [3]), [1, 2], 2, 1, 1⟩ 2 ∧
      WriteReports scripted Prod.snd ⟨([true], []), [1, 2], 2, 1⟩ [3, 4] ∧
      SeekReports scriptedIn ⟨([none], [3]), [1, 2], 2, 1, 1⟩ 1 .begin := by
  have hsound : Sound (⟨([none], [3]), [1, 2], 2, 1, 1⟩ :
      BufferedInStream (List (Option Nat) × List Byte)) :=
    ⟨rfl, by decide, by decide, by decide⟩
  obtain ⟨hread, hwrite, hseek⟩ := failures_reported_iff scriptedIn_truthful scripted_all_or_nothing
  refine ⟨(hread _ 2 hsound).mpr ?_, (hwrite _ [3, 4] ⟨rfl, by decide, by decide, by decide⟩
    (by decide)).mpr ⟨by decide, ?_⟩, (hseek _ 1 .begin hsound).mpr ?_⟩
  · rintro ⟨hdata, _⟩
    cases hdata
  · rw [due, spills_long (by decide) (by decide), spills_short (by decide)]
    exact ⟨_, rfl, trivial⟩
  · rintro ⟨s₁, hbegin, _⟩
    cases hbegin

/-- Failures in front of any byte are answered with 2^32 - 1 by read and write,
and seek goes on behind one. -/
theorem failures_answer_word :
    (∃ b, BufferedInStream.read scriptedIn 2 (.init ([none], [1]) 2) 1 =
      .ok (⟨4294967295, []⟩, b)) ∧
    (∃ b, BufferedOutStream.write scripted 2 ⟨([false], []), [1, 2], 2, 2⟩ [3] =
      .ok (4294967295, b)) ∧
    ¬ SeekReports scriptedIn (.init ([none], [1, 2]) 2) 1 .current := by
  refine ⟨⟨_, rfl⟩, ⟨_, rfl⟩, ?_⟩
  intro h
  obtain ⟨k, b', hrun⟩ := h ⟨[], _, .failed (by decide) rfl rfl rfl⟩
  exact seekOn_ne scriptedIn_truthful (init_sound (by decide)) (hrun k (Nat.le_refl k))

end CkCore.Proofs.BufferedReports
