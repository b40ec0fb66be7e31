import CkCore.Proofs.OutRuns

namespace CkCore.Proofs.ShortWrites
open Lib BufferedOutStream BufferedOut OutRuns

section
variable {τ : Type} {out : OutStream τ} {received : τ → List Byte} {t : τ} {size : Nat}
  {b : BufferedOutStream τ} {data : List Byte}

/-- The outcome of a write none of whose blocks was refused, however much of
them was accepted. -/
structure Passed (out : OutStream τ) (b : BufferedOutStream τ) (data : List Byte)
    (res : Int × BufferedOutStream τ) : Prop where
  count : res.1 = data.length
  fits : Fits res.2
  size : res.2.bufferSize = b.bufferSize
  sent : out.Sent b.stream (due b data) res.2.stream
  kept : pending res.2 = kept b.bufferSize (pending b ++ data)

/-- Over a sink that never fails every write within the word range passes. -/
theorem write_passes (ho : AcceptsFront out received) (hb : Fits b)
    (hno : b.bufferPos + data.length < word) (fuel : Nat)
    (hf : b.bufferPos + data.length < fuel) :
    ∃ res, write out fuel b data = .ok res ∧ Passed out b data res := by
  have hne : ¬ b.bufferSize = 0 := by have := hb.positive; omega
  simp only [write, hne, ↓reduceIte]
  refine loop_total (P := fun w => ∃ done, Underway b data done w ∧
      out.Sent b.stream done w.self.stream)
    (fun w => w.self.bufferPos + w.count) ?_ fuel ⟨b, 0, data.length⟩
    ⟨[], underway_first hb hno, .none _⟩ hf
  rintro w ⟨done, hunder, hsent⟩
  by_cases hn : w.self.bufferPos + w.count ≤ w.self.bufferSize
  · obtain ⟨self, hpass, hfits, hsize, hstream, hdue, hkept⟩ := hunder.keep out hn
    refine Or.inr ⟨_, hpass, rfl, hfits, hsize, ?_, hkept⟩
    rw [hdue, hstream]
    exact hsent
  · obtain ⟨block, hspill⟩ := hunder.spill out (by omega)
    obtain ⟨k, t', _, hwrite, _⟩ := ho w.self.stream block
    have hret : (k : Int) ≠ -1 := by omega
    obtain ⟨w', hpass, hstream, hnext, hless⟩ := (hspill _ _ hwrite).2 hret
    refine Or.inl ⟨w', hpass, ⟨_, hnext, ?_⟩, hless⟩
    rw [hstream]
    exact hsent.snoc hwrite hret

theorem write_passed (ho : AcceptsFront out received) (hb : Fits b)
    (hargs : data.length < word) {fuel : Nat} {res : Int × BufferedOutStream τ}
    (h : write out fuel b data = .ok res) : Passed out b data res := by
  exact (write_settles hb hargs h fun hno => write_passes ho hb hno (fuel + word) (by omega)).2

/-- What is handed on in the call: the full blocks due, or all that is pending. -/
def handed (s : Client τ) : OutCall → List (List Byte)
  | .write data => due s.self data
  | .flush => [pending s.self]

/-- The sink accepts in full all that the call hands on. -/
def whole (out : OutStream τ) (s : Client τ) (c : OutCall) : Prop :=
  out.takes s.self.stream (handed s c)

/-- What is given to a call. -/
def dataOf : OutCall → List Byte
  | .write data => data
  | .flush => []

/-- A call over a sink that never fails hands on what it says and keeps the rest. -/
theorem perform_sends (ho : AcceptsFront out received) {s s' : Client τ} (hb : Fits s.self)
    {c : OutCall} (hargs : (dataOf c).length < word) {fuel : Nat}
    (h : perform out fuel s c = .ok s') :
    Fits s'.self ∧ s'.claimed = s.claimed ++ dataOf c ∧
      out.Sent s.self.stream (handed s c) s'.self.stream ∧
      (handed s c).flatten ++ pending s'.self = pending s.self ++ dataOf c := by
  cases c with
  | write data =>
    obtain ⟨⟨r, self⟩, hw, hs⟩ := bind_ok h
    cases hs
    have hpassed := write_passed ho hb hargs hw
    have hkept : pending self = kept s.self.bufferSize (pending s.self ++ data) := hpassed.kept
    refine ⟨hpassed.fits, ?_, hpassed.sent, ?_⟩
    · show s.claimed ++ reported r data = _
      rw [show r = data.length from hpassed.count, reported_all]
      rfl
    · show (due s.self data).flatten ++ pending self = _
      rw [hkept]
      exact spills_kept _ _
  | flush =>
    obtain ⟨k, t', hk, hwrite, _⟩ := ho s.self.stream (pending s.self)
    have hret : (k : Int) ≠ -1 := by omega
    have hflush := flush_writes hb hwrite
    rw [if_neg hret] at hflush
    simp only [perform, hflush, ok_bind, pure_ok, Except.ok.injEq] at h
    subst h
    refine ⟨⟨hb.room, hb.positive, hb.small, Nat.zero_le _⟩, (List.append_nil _).symm,
      .piece hwrite hret (.none _), ?_⟩
    simp [handed, pending, dataOf]

/-- Everything reported is with the sink or pending when the sink accepts in
full what the call hands on, and something is missing otherwise. -/
structure Held (out : OutStream τ) (received : τ → List Byte) (s : Client τ) (c : OutCall)
    (s' : Client τ) (reports : List Byte) : Prop where
  claimed : s'.claimed = s.claimed ++ reports
  holds : whole out s c → received s'.self.stream ++ pending s'.self =
    received s.self.stream ++ pending s.self ++ reports
  short : ¬ whole out s c → (received s'.self.stream ++ pending s'.self).length <
    (received s.self.stream ++ pending s.self ++ reports).length

theorem perform_held (ho : AcceptsFront out received) {s s' : Client τ} (hb : Fits s.self)
    {c : OutCall} (hargs : (dataOf c).length < word) {fuel : Nat}
    (h : perform out fuel s c = .ok s') :
    Fits s'.self ∧ Held out received s c s' (dataOf c) := by
  obtain ⟨hfits, hclaimed, hsent, hrest⟩ := perform_sends ho hb hargs h
  obtain ⟨taken, hconsumed, hall, hshort⟩ := hsent.consumed ho.consumes
  refine ⟨hfits, hclaimed, ?_, ?_⟩
  · intro hwhole
    rw [List.append_assoc (received s.self.stream), ← hrest, hconsumed, hall hwhole,
      List.append_assoc]
  · intro hn
    have hlt := hshort hn
    rw [List.append_assoc (received s.self.stream), ← hrest, hconsumed]
    simp only [List.length_append]
    omega

/-- The internal buffer could not be allocated. -/
structure Unbuffered (b : BufferedOutStream τ) : Prop where
  size : b.bufferSize = 0
  pos : b.bufferPos = 0

theorem Unbuffered.pending (h : Unbuffered b) : pending b = [] := by
  unfold BufferedOutStream.pending
  rw [h.pos, List.take_zero]

/-- Without a buffer all that is reported has been accepted. -/
theorem perform_redirects (ho : AcceptsFront out received) {s s' : Client τ}
    (hb : Unbuffered s.self) {c : OutCall} {fuel : Nat} (h : perform out fuel s c = .ok s') :
    Unbuffered s'.self ∧ ∃ reports, Held out received s c s' reports := by
  cases c with
  | write data =>
    obtain ⟨k, t', hk, hwrite, hreceived⟩ := ho s.self.stream data
    have hret : ¬ (k : Int) = -1 := by omega
    have hreported : reported k data = data.take k := by
      simp [reported, hret]
    have hwhole : whole out s (.write data) := by
      have hdue : due s.self data = [] := by
        rw [due, spills, if_neg (by rw [hb.size]; exact fun hpos => absurd hpos.1 (by decide))]
      show out.takes _ (due s.self data)
      rw [hdue]
      trivial
    simp only [perform, write, hb.size, if_true, hwrite, ok_bind, pure_ok, Except.ok.injEq] at h
    subst h
    have hnext : Unbuffered (BufferedOutStream.mk t' s.self.buffer 0 s.self.bufferPos) :=
      ⟨rfl, hb.pos⟩
    refine ⟨hnext, data.take k, ?_, fun _ => ?_, fun hn => absurd hwhole hn⟩
    · show s.claimed ++ reported k data = _
      rw [hreported]
    · rw [hb.pending, List.append_nil, hnext.pending, List.append_nil]
      exact hreceived
  | flush =>
    obtain ⟨k, t', hk, hwrite, _⟩ := ho s.self.stream []
    have hwhole : whole out s .flush := by
      refine ⟨t', ?_, trivial⟩
      rw [hb.pending, hwrite, Nat.le_zero.mp hk]
      rfl
    simp only [perform, flush, hb.size, if_true, ok_bind, pure_ok, Except.ok.injEq] at h
    subst h
    exact ⟨hb, [], (List.append_nil _).symm, fun _ => (List.append_nil _).symm,
      fun hn => absurd hwhole hn⟩

/-- All sequences of calls on a stream whose buffer was or was not allocated. -/
def anyClients (out : OutStream τ) (t : τ) (size : Nat) : System (Client τ) OutCall where
  init s := s = start t size ∨ s = ⟨⟨t, [], 0, 0⟩, [], []⟩
  step := (clients out t size).step

/-- What every run over a sink that never fails keeps. -/
structure Kept (out : OutStream τ) (received : τ → List Byte) (t : τ)
    (past : List (Client τ × OutCall)) (s : Client τ) : Prop where
  shape : Fits s.self ∨ Unbuffered s.self
  holds : (∀ p ∈ past, whole out p.1 p.2) →
    received s.self.stream ++ pending s.self = received t ++ s.claimed
  short : (¬ ∀ p ∈ past, whole out p.1 p.2) →
    (received s.self.stream ++ pending s.self).length < (received t ++ s.claimed).length

theorem Kept.start (hw : size < word) {s : Client τ} (h : (anyClients out t size).init s) :
    Kept out received t [] s := by
  rcases h with rfl | rfl
  · have hfits : Fits (OutRuns.start t size).self := by
      by_cases hsize : size = 0
      · subst hsize
        have hdefault : Fits (init t 8192) := init_fits (by decide) (by decide)
        exact hdefault
      · exact init_fits (by omega) hw
    have hnone : pending (init t size) = [] := by simp [init, pending]
    refine ⟨Or.inl hfits, fun _ => ?_, fun hn => absurd (by simp) hn⟩
    show received t ++ pending (init t size) = received t ++ []
    rw [hnone]
  · exact ⟨Or.inr ⟨rfl, rfl⟩, fun _ => rfl, fun hn => absurd (by simp) hn⟩

/-- Once a byte is missing it stays missing. -/
theorem Kept.next {past : List (Client τ × OutCall)} {s s' : Client τ}
    (h : Kept out received t past s) {c : OutCall} (hshape : Fits s'.self ∨ Unbuffered s'.self)
    {reports : List Byte} (hheld : Held out received s c s' reports) :
    Kept out received t (past ++ [(s, c)]) s' := by
  have hle : (received s.self.stream ++ pending s.self).length ≤
      (received t ++ s.claimed).length := by
    by_cases hall : ∀ p ∈ past, whole out p.1 p.2
    · exact Nat.le_of_eq (congrArg List.length (h.holds hall))
    · exact Nat.le_of_lt (h.short hall)
  have hmem : (∀ p ∈ past ++ [(s, c)], whole out p.1 p.2) ↔
      (∀ p ∈ past, whole out p.1 p.2) ∧ whole out s c := by
    simp only [List.mem_append, List.mem_singleton, or_imp, forall_and, forall_eq]
  refine ⟨hshape, ?_, ?_⟩
  · intro hall
    obtain ⟨hpast, hlast⟩ := hmem.mp hall
    rw [hheld.holds hlast, h.holds hpast, hheld.claimed, List.append_assoc]
  · intro hnot
    rw [hmem, Classical.not_and_iff_not_or_not] at hnot
    rw [hheld.claimed]
    by_cases hlast : whole out s c
    · have hlt := h.short (hnot.resolve_right (fun hn => hn hlast))
      have hsame := congrArg List.length (hheld.holds hlast)
      simp only [List.length_append] at hlt hsame ⊢
      omega
    · have hlt := hheld.short hlast
      simp only [List.length_append] at hle hlt ⊢
      omega

theorem run_kept (ho : AcceptsFront out received) (hw : size < word)
    {past : List (Client τ × OutCall)} {s : Client τ} (hr : (anyClients out t size).Run past s)
    (hargs : ∀ p ∈ past, (dataOf p.2).length < word) : Kept out received t past s := by
  induction hr with
  | start h => exact Kept.start hw h
  | next before step ih =>
    obtain ⟨fuel, step⟩ := step
    have hkept := ih fun p hp => hargs p (List.mem_append_left _ hp)
    have hlast := hargs _ (List.mem_append_right _ (List.mem_singleton.mpr rfl))
    rcases hkept.shape with hb | hb
    · obtain ⟨hfits, hheld⟩ := perform_held ho hb hlast step
      exact hkept.next (Or.inl hfits) hheld
    · obtain ⟨hnone, reports, hheld⟩ := perform_redirects ho hb step
      exact hkept.next (Or.inr hnone) hheld

/-- Over a sink that never fails, but may accept only the front of a write, the
bytes accepted and the bytes pending are those reported after a run of writes
and flushes if and only if everything handed on in the run was accepted in full. -/
theorem short_writes_iff (ho : AcceptsFront out received) (hw : size < word)
    {past : List (Client τ × OutCall)} {s : Client τ} (hr : (anyClients out t size).Run past s)
    (hargs : ∀ p ∈ past, (dataOf p.2).length < word) :
    received s.self.stream ++ pending s.self = received t ++ s.claimed ↔
      ∀ p ∈ past, whole out p.1 p.2 := by
  have hkept := run_kept ho hw hr hargs
  constructor
  · intro heq
    apply Classical.byContradiction
    intro hn
    have hlt := hkept.short hn
    rw [heq] at hlt
    exact absurd hlt (Nat.lt_irrefl _)
  · exact hkept.holds

end

/-- A full block of four bytes of which the sink accepts two: the write reports
all five bytes, and the third and the fourth are gone. -/
theorem short_block_loses_bytes :
    ∃ s, (anyClients (capped 2) [] 4).Reached inWord s ∧ s.claimed = [1, 2, 3, 4, 5] ∧
      id s.self.stream ++ pending s.self = [1, 2, 5] :=
  ⟨⟨⟨[1, 2], [5, 2, 3, 4], 4, 1⟩, [1, 2, 3, 4, 5], [1, 2, 3, 4, 5]⟩,
    .next (e := .write [1, 2, 3, 4, 5]) (.start (Or.inl rfl)) (by decide) ⟨20, by rfl⟩, rfl, rfl⟩

/-- Two bytes through a buffer of four, then flushed: a sink that accepts two
at a time gets both. -/
theorem short_writes_two :
    ∃ past s, (anyClients (capped 2) [] 4).Run past s ∧
      id s.self.stream ++ pending s.self = [] ++ s.claimed := by
  have first : (anyClients (capped 2) [] 4).Run [(start [] 4, .write [1, 2])]
      ⟨⟨[], [1, 2, 0, 0], 4, 2⟩, [1, 2], [1, 2]⟩ := .next (.start (Or.inl rfl)) ⟨20, by rfl⟩
  have both : (anyClients (capped 2) [] 4).Run
      [(start [] 4, .write [1, 2]), (⟨⟨[], [1, 2, 0, 0], 4, 2⟩, [1, 2], [1, 2]⟩, .flush)]
      ⟨⟨[1, 2], [1, 2, 0, 0], 4, 0⟩, [1, 2], [1, 2]⟩ := .next first ⟨20, by rfl⟩
  have hiff := short_writes_iff (capped_accepts 2) (show 4 < word by decide) both
    (by simp [dataOf, word])
  refine ⟨_, _, both, hiff.mpr ?_⟩
  intro p hp
  rcases List.mem_cons.mp hp with rfl | hp
  · show (capped 2).takes [] (due (init [] 4) [1, 2])
    rw [due, spills_short (by decide)]
    trivial
  · cases List.mem_singleton.mp hp
    exact ⟨[1, 2], rfl, trivial⟩

end CkCore.Proofs.ShortWrites
