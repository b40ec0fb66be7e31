import CkCore.Lib.System
import CkCore.Proofs.BufferedIn

namespace CkCore.Proofs.SeekPastEnd
open Lib BufferedInStream BufferedIn Cursor

section
variable {σ : Type}

/-- The arguments of a call are 32-bit words, which is all their types say. -/
def counted (_ : BufferedInStream σ) : Call → Prop
  | .read count => count < word
  | .end => True
  | .seek distance _ => distance < word

/-- All sequences of calls on a fresh buffered stream, each of which returned. -/
def clients (src : InStream σ) (s : σ) (size : Nat) : System (BufferedInStream σ) Call where
  init b := b = init s size
  step b op b' := ∃ fuel answer, (inStream src fuel).call b op = .ok (answer, b')

/-- The position of the next byte the client gets: what is buffered is still in
front of it. -/
def cursor (pos : σ → Nat) (b : BufferedInStream σ) : Nat := pos b.stream - b.bufferData

/-- The seek returns and, past the last byte, leaves a stream that is at its
end and has nothing to read. -/
def Settles (src : InStream σ) (pos : σ → Nat) (content : List Byte) (b : BufferedInStream σ)
    (distance : Nat) (whence : StreamWhence) : Prop :=
  ∃ fuel ok b', seek src fuel b distance whence = .ok (ok, b') ∧
    (content.length ≤ target (cursor pos b) distance whence →
      BufferedInStream.end src b' = true ∧
      ∀ count, ∃ fuel b'', BufferedInStream.read src fuel b' count = .ok (⟨0, []⟩, b''))

variable {src : InStream σ} {content : List Byte} {pos : σ → Nat}
  {b : BufferedInStream σ} {c : Nat}

theorem read_mono {m n count : Nat} {res : ReadResult × BufferedInStream σ}
    (h : BufferedInStream.read src m b count = .ok res) (hmn : m ≤ n) :
    BufferedInStream.read src n b count = .ok res := by
  by_cases hne : b.bufferSize = 0
  · simp only [BufferedInStream.read, hne, ↓reduceIte] at h ⊢
    exact h
  · simp only [BufferedInStream.read, hne, ↓reduceIte] at h ⊢
    exact loop_mono h hmn

theorem seekPass_mono {m n : Nat} {p : BufferedInStream σ × Nat}
    {next : Pass (BufferedInStream σ × Nat) (Bool × BufferedInStream σ)}
    (h : seekPass src m p = .ok next) (hmn : m ≤ n) : seekPass src n p = .ok next := by
  obtain ⟨b, distance⟩ := p
  by_cases hd : 0 < distance
  · simp only [seekPass, hd, ↓reduceIte] at h ⊢
    obtain ⟨res, hread, hrest⟩ := bind_ok h
    rw [read_mono hread hmn]
    exact hrest
  · simp only [seekPass, hd, ↓reduceIte] at h ⊢
    exact h

theorem seekOn_mono {m n distance : Nat} {res : Bool × BufferedInStream σ}
    (h : seekOn src m b distance = .ok res) (hmn : m ≤ n) :
    seekOn src n b distance = .ok res := by
  by_cases hd : distance = 0
  · simp only [seekOn, hd, ↓reduceIte] at h ⊢
    exact h
  · simp only [seekOn, hd, ↓reduceIte] at h ⊢
    exact loop_mono_body (fun _ _ hp => seekPass_mono hp hmn) h hmn

theorem seek_mono {m n distance : Nat} {whence : StreamWhence} {res : Bool × BufferedInStream σ}
    (h : seek src m b distance whence = .ok res) (hmn : m ≤ n) :
    seek src n b distance whence = .ok res := by
  cases whence with
  | current => exact seekOn_mono h hmn
  | begin =>
    obtain ⟨⟨ok, s⟩, hs, hrest⟩ := bind_ok h
    simp only [seek, hs, ok_bind]
    cases ok with
    | true => exact seekOn_mono hrest hmn
    | false => exact hrest

theorem call_mono {m n : Nat} {op : Call} {res : Answer × BufferedInStream σ}
    (h : (inStream src m).call b op = .ok res) (hmn : m ≤ n) :
    (inStream src n).call b op = .ok res := by
  cases op with
  | «end» => exact h
  | read count =>
    obtain ⟨r, hread, hrest⟩ := bind_ok h
    have hread' : (inStream src n).read b count = .ok r := read_mono hread hmn
    simp only [InStream.call, hread', ok_bind]
    exact hrest
  | seek distance whence =>
    obtain ⟨r, hseek, hrest⟩ := bind_ok h
    have hseek' : (inStream src n).seek b distance whence = .ok r := seek_mono hseek hmn
    simp only [InStream.call, hseek', ok_bind]
    exact hrest

/-- Where a seek past the end stands: the goal lies behind the content, so some
distance is left whatever was read. -/
def Short (content : List Byte) (pos : σ → Nat) (goal : Nat) (p : BufferedInStream σ × Nat) :
    Prop :=
  Seeking content pos goal p ∧ p.2 < word ∧ content.length < goal

/-- A pass of such a seek drops what there is to read, at the end of the
content nothing, and goes round again. -/
theorem short_pass (h : Serves src content pos) {fuel goal : Nat} (hf : content.length < fuel)
    (p : BufferedInStream σ × Nat) (hp : Short content pos goal p) :
    ∃ p', seekPass src fuel p = .ok (.again p') ∧ Short content pos goal p' := by
  obtain ⟨b, distance⟩ := p
  obtain ⟨⟨c, hb, hgoal⟩, hdw, hbeyond⟩ := hp
  dsimp only at hb hgoal hdw
  have hbound := holds_bounded h hb
  have hd : 0 < distance := by omega
  have hne : ¬ b.bufferSize = 0 := by have := hb.positive; omega
  obtain ⟨n, hn⟩ : ∃ n, n = if b.bufferSize < distance then b.bufferSize else distance := ⟨_, rfl⟩
  have hnd : n ≤ distance := by
    rw [hn]
    split <;> omega
  obtain ⟨b', hread, hb'⟩ := read_delivers h hb hf n
  obtain ⟨k, hk⟩ : ∃ k, k = (slice content c n).length := ⟨_, rfl⟩
  have hkn : k ≤ n := by
    rw [hk, slice_length]
    omega
  rw [← hk] at hb'
  have hret : ¬ (k : Int) = -1 := by omega
  refine ⟨(b', distance - k), ?_, ⟨c + k, hb', ?_⟩, ?_, hbeyond⟩
  · simp only [seekPass, hd, hne, ↓reduceIte, ← hn, hread, ok_bind, ← hk, hret]
    rw [toWord_nat (by omega), subWord_eq hdw (by omega)]
    rfl
  · dsimp only
    omega
  · dsimp only
    omega

theorem seekOn_diverges (h : Serves src content pos) (hb : Holds content pos b c) {fuel : Nat}
    (hf : content.length < fuel) {distance : Nat} (hw : distance < word)
    (hd : content.length < c + distance) :
    seekOn src fuel b distance = .error .outOfFuel := by
  have hbound := holds_bounded h hb
  have hne : ¬ distance = 0 := by omega
  simp only [seekOn, hne, ↓reduceIte]
  exact loop_diverges (short_pass h hf) ⟨⟨c, hb, rfl⟩, hw, hd⟩ fuel

/-- A seek past the end goes round for ever. -/
theorem seek_diverges (h : Serves src content pos) (hb : Holds content pos b c) {fuel : Nat}
    (hf : content.length < fuel) {distance : Nat} (hw : distance < word) (whence : StreamWhence)
    (hd : content.length < target c distance whence) :
    seek src fuel b distance whence = .error .outOfFuel := by
  cases whence with
  | current => exact seekOn_diverges h hb hf hw hd
  | begin =>
    obtain ⟨s', hs, hpos⟩ := h.rewind b.stream
    have hstart := hb.rewound hpos
    have hgo := seekOn_diverges h hstart hf hw (by simpa [target] using hd)
    simp only [seek, hs, ok_bind, ↓reduceIte, hgo]

theorem Holds.cursor (hb : Holds content pos b c) : cursor pos b = c := by
  have hahead := hb.ahead
  unfold SeekPastEnd.cursor
  omega

/-- Whatever a returned call was, the stream is still a cursor over the content. -/
theorem call_holds (h : Serves src content pos) (hb : Holds content pos b c) {op : Call}
    (hop : counted b op) {fuel : Nat} {answer : Answer} {b' : BufferedInStream σ}
    (hcall : (inStream src fuel).call b op = .ok (answer, b')) :
    ∃ c', Holds content pos b' c' := by
  have hmore := call_mono hcall (Nat.le_add_right fuel (content.length + 1))
  have hf : content.length < fuel + (content.length + 1) := by omega
  cases op with
  | «end» =>
    cases hcall
    exact ⟨c, hb⟩
  | read count =>
    obtain ⟨b'', hrun, hb''⟩ := read_delivers h hb hf count
    simp only [InStream.call, inStream, hrun, ok_bind, pure_ok, Except.ok.injEq,
      Prod.mk.injEq] at hmore
    exact ⟨_, hmore.2 ▸ hb''⟩
  | seek distance whence =>
    by_cases hd : target c distance whence ≤ content.length
    · obtain ⟨b'', hrun, hb''⟩ := seek_targets h hb hf hop whence hd
      simp only [InStream.call, inStream, hrun, ok_bind, pure_ok, Except.ok.injEq,
        Prod.mk.injEq] at hmore
      exact ⟨_, hmore.2 ▸ hb''⟩
    · have hrun := seek_diverges h hb hf hop whence (Nat.lt_of_not_le hd)
      simp only [InStream.call, inStream, hrun] at hmore
      cases hmore

/-- A fresh stream is where the underlying one is, also when it was asked for no
buffer and has one of the default size. -/
theorem start_holds (s : σ) {size : Nat} (hw : size < word) :
    Holds content pos (init s size) (pos s) := by
  by_cases hs : size = 0
  · have hsome : ¬ (8192 : Nat) = 0 := by decide
    have hdefault : init s 0 = init s 8192 := by simp only [init, hsome, ↓reduceIte]
    rw [hs, hdefault]
    exact init_holds rfl (by decide) (by decide)
  · exact init_holds rfl (Nat.pos_of_ne_zero hs) hw

theorem reached_holds (h : Serves src content pos) {s : σ} {size : Nat} (hw : size < word)
    (hr : (clients src s size).Reached counted b) :
    ∃ c, Holds content pos b c := by
  refine hr.invariant (P := fun b => ∃ c, Holds content pos b c) ?_ ?_
  · intro b hinit
    exact ⟨pos s, hinit ▸ start_holds s hw⟩
  · rintro b op b' ⟨c, hb⟩ hop ⟨fuel, answer, hcall⟩
    exact call_holds h hb hop hcall

/-- At the end of the content every read returns nothing. -/
theorem Holds.drained (h : Serves src content pos) (hb : Holds content pos b content.length)
    (count : Nat) :
    ∃ fuel b', BufferedInStream.read src fuel b count = .ok (⟨0, []⟩, b') := by
  obtain ⟨b', hread, _⟩ := read_delivers h hb (Nat.lt_succ_self _) count
  have hnone : slice content content.length count = [] := by simp [slice]
  rw [hnone] at hread
  exact ⟨_, b', hread⟩

/-- From every state a client can bring the stream to, a seek settles exactly
when its target does not lie behind the end: past it the loop waits for bytes
that no read delivers any more. -/
theorem seek_settles_iff (h : Serves src content pos) {s : σ} {size : Nat} (hw : size < word)
    (hr : (clients src s size).Reached counted b) {distance : Nat} (hd : distance < word)
    (whence : StreamWhence) :
    Settles src pos content b distance whence ↔
      target (cursor pos b) distance whence ≤ content.length := by
  obtain ⟨c, hb⟩ := reached_holds h hw hr
  unfold Settles
  rw [Holds.cursor hb]
  constructor
  · rintro ⟨fuel, ok, b', hseek, _⟩
    by_cases htarget : target c distance whence ≤ content.length
    · exact htarget
    · have hmore := seek_mono hseek (Nat.le_add_right fuel (content.length + 1))
      rw [seek_diverges h hb (by omega) hd whence (Nat.lt_of_not_le htarget)] at hmore
      cases hmore
  · intro htarget
    obtain ⟨b', hseek, hb'⟩ := seek_targets h hb (Nat.lt_succ_self _) hd whence htarget
    refine ⟨_, true, b', hseek, ?_⟩
    intro hlast
    have hgoal : target c distance whence = content.length := Nat.le_antisymm htarget hlast
    rw [hgoal] at hb'
    refine ⟨?_, Holds.drained h hb'⟩
    rw [end_iff h hb']
    exact beq_self_eq_true _

end

/-- Four bytes read through a buffer of two: seeking to the very end settles. -/
theorem seek_settles_four :
    Settles (pieces [1, 2, 3, 4] 3) Fin.val [1, 2, 3, 4] (init 0 2) 4 .current :=
  (seek_settles_iff (pieces_serves [1, 2, 3, 4] 3 (by decide)) (show 2 < word by decide)
    (.start rfl) (by decide) .current).mpr (by decide)

/-- One byte more, and the seek never returns. -/
theorem seek_five_hangs :
    (clients (pieces [1, 2, 3, 4] 3) 0 2).Reached counted (init 0 2) ∧
    ∀ fuel res, seek (pieces [1, 2, 3, 4] 3) fuel (init 0 2) 5 .begin ≠ .ok res := by
  refine ⟨.start rfl, ?_⟩
  intro fuel res hseek
  have hserves := pieces_serves [1, 2, 3, 4] 3 (by decide)
  have hholds : Holds [1, 2, 3, 4] Fin.val (init (0 : Fin 5) 2) 0 :=
    init_holds rfl (by decide) (by decide)
  have hmore := seek_mono hseek (Nat.le_add_right fuel 5)
  rw [seek_diverges hserves hholds (by simp) (by decide) .begin (by decide)] at hmore
  cases hmore

end CkCore.Proofs.SeekPastEnd
