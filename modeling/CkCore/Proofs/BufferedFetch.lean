import CkCore.Spec.Fetching

namespace CkCore.Proofs.BufferedFetch
open Lib BufferedInStream

variable {σ : Type} {src : InStream σ} {b : BufferedInStream σ} {r : Reading σ}

/-- The buffer has its size and the bytes held lie inside it. -/
structure Sound (b : BufferedInStream σ) : Prop where
  room : b.buffer.length = b.bufferSize
  positive : 0 < b.bufferSize
  small : b.bufferSize < word
  inside : b.bufferPos + b.bufferData ≤ b.bufferSize

theorem init_sound {s : σ} {size : Nat} (hw : size < word) : Sound (init s size) := by
  have hsize : (init s size).bufferSize = if size = 0 then 8192 else size := rfl
  have hinit : 0 < (init s size).bufferSize ∧ (init s size).bufferSize < word := by
    rw [hsize]
    unfold word at hw ⊢
    split <;> omega
  exact ⟨List.length_replicate, hinit.1, hinit.2, Nat.zero_le _⟩

theorem Sound.held_length (h : Sound b) : (held b).length = b.bufferData := by
  have hroom := h.room
  have hinside := h.inside
  simp only [held, List.length_take, List.length_drop]
  omega

theorem Sound.load_held (h : Sound b) {n : Nat} (hn : n ≤ b.bufferData) :
    load b.buffer b.bufferPos n = .ok ((held b).take n) := by
  have hroom := h.room
  have hinside := h.inside
  rw [load_ok (by omega), held, List.take_take, Nat.min_eq_left hn]

/-- A pass that finds enough bytes held hands them out. -/
theorem pass_deliver (src : InStream σ) (h : Sound r.self) (hn : r.count ≤ r.self.bufferData) :
    ∃ b', readPass src r = .ok (.leave (⟨(r.copied ++ (held r.self).take r.count).length,
        r.copied ++ (held r.self).take r.count⟩, b')) ∧
      Sound b' ∧ b'.stream = r.self.stream ∧ held b' = (held r.self).drop r.count := by
  have hinside := h.inside
  refine ⟨_, readPass_deliver hn (h.load_held hn), ?_, rfl, ?_⟩
  · exact ⟨h.room, h.positive, h.small, by dsimp only; omega⟩
  · simp only [held, List.drop_take, List.drop_drop]

/-- Emptying the buffer leaves it sound. -/
theorem Sound.emptied (h : Sound b) {s : σ} {data buffer : List Byte}
    (hs : store b.buffer 0 data = .ok buffer) :
    Sound { b with stream := s, buffer := buffer, bufferPos := 0, bufferData := 0 } :=
  ⟨(store_length hs).trans h.room, h.positive, h.small, Nat.zero_le _⟩

theorem pass_load (h : Sound r.self) :
    load r.self.buffer r.self.bufferPos r.self.bufferData = .ok (held r.self) := by
  rw [h.load_held (Nat.le_refl _), ← h.held_length, List.take_length]

/-- A pass that drains the buffer at the end of the source leaves. -/
theorem pass_end (h : Sound r.self) (hn : r.self.bufferData < r.count)
    (he : src.end r.self.stream = true) :
    ∃ b', readPass src r = .ok (.leave (⟨(r.copied ++ held r.self).length,
        r.copied ++ held r.self⟩, b')) ∧
      Sound b' ∧ b'.stream = r.self.stream ∧ held b' = [] := by
  refine ⟨_, readPass_end hn (pass_load h) he, ?_, rfl, ?_⟩
  · exact ⟨h.room, h.positive, h.small, Nat.zero_le _⟩
  · simp only [held, List.take_zero]

/-- A pass whose fetch fails leaves with what it has drained. -/
theorem pass_fail (h : Sound r.self) (hn : r.self.bufferData < r.count)
    (he : src.end r.self.stream = false) {res : ReadResult} {s : σ}
    (hr : src.read r.self.stream r.self.bufferSize = .ok (res, s))
    (hlen : res.data.length ≤ r.self.bufferSize) (hfail : res.ret = -1) :
    ∃ b', readPass src r = .ok (.leave (⟨partialCount (r.copied ++ held r.self).length,
        r.copied ++ held r.self⟩, b')) ∧
      Sound b' ∧ b'.stream = s ∧ held b' = [] := by
  obtain ⟨buffer, hstore⟩ : ∃ buffer, store r.self.buffer 0 res.data = .ok buffer :=
    ⟨_, store_ok (by rw [h.room]; omega)⟩
  have hpass := readPass_fetch hn (pass_load h) he hr hstore
  rw [if_pos hfail] at hpass
  refine ⟨_, hpass, h.emptied hstore, rfl, ?_⟩
  simp only [held, List.take_zero]

/-- A pass whose fetch succeeds goes on with the bytes fetched. -/
theorem pass_fetch (h : Sound r.self) (hn : r.self.bufferData < r.count)
    (he : src.end r.self.stream = false) {data : List Byte} {s : σ}
    (hr : src.read r.self.stream r.self.bufferSize = .ok (⟨data.length, data⟩, s))
    (hlen : data.length ≤ r.self.bufferSize) :
    ∃ r', readPass src r = .ok (.again r') ∧ Sound r'.self ∧
      r'.self.bufferSize = r.self.bufferSize ∧ r'.self.stream = s ∧ held r'.self = data ∧
      r'.count = r.count - r.self.bufferData ∧ r'.copied = r.copied ++ held r.self := by
  obtain ⟨buffer, hstore⟩ : ∃ buffer, store r.self.buffer 0 data = .ok buffer :=
    ⟨_, store_ok (by rw [h.room]; omega)⟩
  have hword : toWord data.length = data.length := toWord_nat (by have := h.small; omega)
  have hret : ¬ (data.length : Int) = -1 := by omega
  have hpass := readPass_fetch hn (pass_load h) he hr hstore
  rw [if_neg hret] at hpass
  have htake := store_take hstore
  rw [Nat.zero_add, List.take_zero, List.nil_append] at htake
  refine ⟨_, hpass, ?_, rfl, rfl, ?_, rfl, rfl⟩
  · refine ⟨(store_length hstore).trans h.room, h.positive, h.small, ?_⟩
    dsimp only
    omega
  · simp only [held, hword, List.drop_zero, htake]

/-- The bytes delivered and those held are all the bytes fetched, in order. -/
structure Kept (b : BufferedInStream (σ × List Byte)) (delivered : List Byte) : Prop where
  sound : Sound b
  all : delivered ++ held b = b.stream.2

/-- A failed read of the source fetches nothing, any other what it reports. -/
theorem recorded_read (h : Truthful src) (p : σ × List Byte) (n : Nat) :
    ∃ res p', src.recorded.read p n = .ok (res, p') ∧ res.data.length ≤ n ∧
      (res.ret = -1 ∧ p'.2 = p.2 ∨ res.ret = res.data.length ∧ p'.2 = p.2 ++ res.data) := by
  obtain ⟨res, s', hread, hlen, hret⟩ := h p.1 n
  refine ⟨res, (s', if res.ret = -1 then p.2 else p.2 ++ res.data), ?_, hlen, ?_⟩
  · simp only [InStream.recorded, hread, ok_bind, pure_ok]
  · rcases hret with hret | hret
    · exact Or.inl ⟨hret, if_pos hret⟩
    · exact Or.inr ⟨hret, if_neg (by omega)⟩

/-- Every pass of read keeps all bytes, whether it goes on, fails or is done. -/
theorem pass_keeps (h : Truthful src) {r : Reading (σ × List Byte)} {before : List Byte}
    (hr : Kept r.self (before ++ r.copied)) :
    (∃ r', readPass src.recorded r = .ok (.again r') ∧ Kept r'.self (before ++ r'.copied)) ∨
    ∃ res b', readPass src.recorded r = .ok (.leave (res, b')) ∧ Kept b' (before ++ res.data) := by
  have hall := hr.all
  rw [List.append_assoc] at hall
  by_cases hn : r.count ≤ r.self.bufferData
  · obtain ⟨b', hpass, hsound, hstream, hheld⟩ := pass_deliver src.recorded hr.sound hn
    refine Or.inr ⟨_, b', hpass, hsound, ?_⟩
    rw [hstream, hheld, List.append_assoc, List.append_assoc, List.take_append_drop]
    exact hall
  · have hn : r.self.bufferData < r.count := by omega
    cases he : src.recorded.end r.self.stream with
    | true =>
      obtain ⟨b', hpass, hsound, hstream, hheld⟩ := pass_end hr.sound hn he
      refine Or.inr ⟨_, b', hpass, hsound, ?_⟩
      rw [hstream, hheld, List.append_nil]
      exact hall
    | false =>
      obtain ⟨⟨ret, data⟩, p', hread, hlen, ⟨hret, hlog⟩ | ⟨hret, hlog⟩⟩ :=
        recorded_read h r.self.stream r.self.bufferSize
      · obtain ⟨b', hpass, hsound, hstream, hheld⟩ := pass_fail hr.sound hn he hread hlen hret
        refine Or.inr ⟨_, b', hpass, hsound, ?_⟩
        rw [hstream, hlog, hheld, List.append_nil]
        exact hall
      · obtain rfl : ret = data.length := hret
        obtain ⟨r', hpass, hsound, _, hstream, hheld, _, hcopied⟩ :=
          pass_fetch hr.sound hn he hread hlen
        refine Or.inl ⟨r', hpass, hsound, ?_⟩
        rw [hstream, hlog, hheld, hcopied, hall]

/-- The passes of one read keep all bytes. -/
theorem passes_keep (h : Truthful src) {b : BufferedInStream (σ × List Byte)}
    {delivered : List Byte} (hb : Kept b delivered) {count : Nat} {r : Reading (σ × List Byte)}
    (hp : Passes (readPass src.recorded) ⟨b, count, []⟩ r) :
    Kept r.self (delivered ++ r.copied) := by
  refine hp.invariant (P := fun r => Kept r.self (delivered ++ r.copied)) ?_ ?_
  · intro r r' hr hpass
    rcases pass_keeps h hr with ⟨r'', hagain, hkept⟩ | ⟨res, b', hleave, _⟩
    · rw [hagain] at hpass
      cases hpass
      exact hkept
    · rw [hleave] at hpass
      cases hpass
  · rw [List.append_nil]
    exact hb

/-- Every sequence of reads keeps all bytes. -/
theorem reached_keeps (h : Truthful src) {b₀ b : BufferedInStream (σ × List Byte)}
    {delivered : List Byte} (hb : Kept b₀ []) (hr : Reached src.recorded b₀ b delivered) :
    Kept b delivered := by
  induction hr with
  | start => exact hb
  | @read b b' delivered fuel count res before call ih =>
    have hne : ¬ b.bufferSize = 0 := by
      have := ih.sound.positive
      omega
    unfold BufferedInStream.read at call
    rw [if_neg hne] at call
    obtain ⟨r, hpasses, hleft⟩ := loop_passes call
    rcases pass_keeps h (passes_keep h ih hpasses) with ⟨r', hagain, _⟩ | ⟨_, _, hleave, hkept⟩
    · rw [hagain] at hleft
      cases hleft
    · rw [hleave] at hleft
      cases hleft
      exact hkept

/-- However the fetches fail or fall short, between the reads and at every pass
of a read the bytes delivered and held are all the bytes fetched, in order, and
every copy stays inside the buffer. -/
theorem reads_conserve (h : Truthful src) {s : σ} {size : Nat} (hsize : size < word)
    {b : BufferedInStream (σ × List Byte)} {delivered : List Byte}
    (hr : Reached src.recorded (init (s, []) size) b delivered) :
    Kept b delivered ∧ ∀ count r, Passes (readPass src.recorded) ⟨b, count, []⟩ r →
      Kept r.self (delivered ++ r.copied) ∧ ∃ p, readPass src.recorded r = .ok p := by
  have hinit : Kept (init (s, ([] : List Byte)) size) [] := by
    refine ⟨init_sound hsize, ?_⟩
    simp only [held, init, List.take_zero, List.nil_append]
  have hb := reached_keeps h hinit hr
  refine ⟨hb, ?_⟩
  intro count r hp
  have hkept := passes_keep h hb hp
  refine ⟨hkept, ?_⟩
  rcases pass_keeps h hkept with ⟨r', hpass, _⟩ | ⟨res, b', hpass, _⟩
  · exact ⟨_, hpass⟩
  · exact ⟨_, hpass⟩

/-- A short fetch, one that fails behind two bytes, and a read that goes on. -/
theorem reads_conserve_five : ∃ b,
    Reached scriptedIn.recorded (init (([some 2, none, some 1], [1, 2, 3, 4, 5]), []) 3)
      b [1, 2, 3] ∧ Kept b [1, 2, 3] := by
  have hfirst : Reached scriptedIn.recorded
      (init (([some 2, none, some 1], [1, 2, 3, 4, 5]), []) 3) _ _ := .read 4 3 .start rfl
  have hsecond := Reached.read 4 1 hfirst rfl
  exact ⟨_, hsecond, (reads_conserve scriptedIn_truthful (by decide) hsecond).1⟩

end CkCore.Proofs.BufferedFetch
