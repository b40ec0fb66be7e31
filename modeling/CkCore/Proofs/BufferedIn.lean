import CkCore.Model.BufferedStream
import CkCore.Spec.Cursor
import CkCore.Spec.Streams

namespace CkCore.Proofs.BufferedIn
open Lib BufferedInStream Cursor

variable {σ : Type} {src : InStream σ} {content : List Byte} {pos : σ → Nat}
  {b : BufferedInStream σ} {c : Nat}

/-- The buffered stream is a cursor at `c`: the valid part of the buffer is the
content from `c` on, and the underlying stream stands right behind it. -/
structure Holds (content : List Byte) (pos : σ → Nat) (b : BufferedInStream σ) (c : Nat) :
    Prop where
  room : b.buffer.length = b.bufferSize
  positive : 0 < b.bufferSize
  small : b.bufferSize < word
  inside : b.bufferPos + b.bufferData ≤ b.bufferSize
  ahead : pos b.stream = c + b.bufferData
  valid : (b.buffer.drop b.bufferPos).take b.bufferData = slice content c b.bufferData

theorem init_holds {s : σ} {size : Nat} (hc : pos s = c) (hs : 0 < size) (hw : size < word) :
    Holds content pos (init s size) c := by
  have hne : ¬ size = 0 := by omega
  constructor <;> simp [init, hne, hc, hs, hw, slice]

/-- Emptying the buffer leaves the cursor where the underlying stream is. -/
theorem Holds.emptied (hb : Holds content pos b c) :
    Holds content pos { b with bufferPos := 0, bufferData := 0 } (c + b.bufferData) := by
  refine ⟨hb.room, hb.positive, hb.small, Nat.zero_le _, ?_, ?_⟩
  · simpa using hb.ahead
  · simp [slice]

/-- Rewinding the underlying stream and dropping the buffer moves the cursor to
the beginning. -/
theorem Holds.rewound (hb : Holds content pos b c) {s : σ} (hs : pos s = 0) :
    Holds content pos { b with stream := s, bufferPos := 0, bufferData := 0 } 0 :=
  ⟨hb.room, hb.positive, hb.small, Nat.zero_le _, by simpa using hs, by simp [slice]⟩

/-- Handing out the first `n` valid bytes moves the cursor by `n`. -/
theorem Holds.advance (hb : Holds content pos b c) {n : Nat} (hn : n ≤ b.bufferData) :
    Holds content pos
      { b with bufferPos := b.bufferPos + n, bufferData := b.bufferData - n } (c + n) := by
  have hi := hb.inside
  have ha := hb.ahead
  refine ⟨hb.room, hb.positive, hb.small, ?_, ?_, ?_⟩
  · dsimp only
    omega
  · dsimp only
    omega
  · have hv := congrArg (List.drop n) hb.valid
    unfold slice at hv
    simp only [List.drop_take, List.drop_drop] at hv
    exact hv

/-- A fetch refills an empty buffer with the next bytes of the content. -/
theorem Holds.refilled (hb : Holds content pos b c) (he : b.bufferData = 0) {s : σ}
    {data buffer : List Byte} (hp : data <+: content.drop (pos b.stream))
    (hs : pos s = pos b.stream + data.length) (hst : store b.buffer 0 data = .ok buffer) :
    Holds content pos
      { b with stream := s, buffer := buffer, bufferPos := 0, bufferData := data.length } c := by
  have ha := hb.ahead
  have hl := (store_inside hst).1
  have hr := hb.room
  refine ⟨?_, hb.positive, hb.small, ?_, ?_, ?_⟩
  · exact (store_length hst).trans hb.room
  · dsimp only
    omega
  · dsimp only
    omega
  · have ht := store_take hst
    simp only [Nat.zero_add, List.take_zero, List.nil_append] at ht
    simp only [List.drop_zero, ht]
    have hc : pos b.stream = c := by omega
    rw [hc] at hp
    exact slice_of_prefix hp

/-- The bytes copied by one pass out of a valid buffer. -/
theorem Holds.part (hb : Holds content pos b c) {n : Nat} (hn : n ≤ b.bufferData) :
    load b.buffer b.bufferPos n = .ok (slice content c n) := by
  have hi := hb.inside
  have hr := hb.room
  rw [load_ok (by omega)]
  have hv := congrArg (List.take n) hb.valid
  unfold slice at hv
  simp only [List.take_take, Nat.min_eq_left hn] at hv
  rw [hv]
  rfl

/-- Where the loop of read stands after `done` of the bytes asked for. -/
def Progress (content : List Byte) (pos : σ → Nat) (c count : Nat) (r : Reading σ) : Prop :=
  ∃ done, r.copied = slice content c done ∧ done + r.count = count ∧
    Holds content pos r.self (c + done)

/-- What read returns and where it leaves the cursor. -/
def Delivered (content : List Byte) (pos : σ → Nat) (c count : Nat)
    (res : ReadResult × BufferedInStream σ) : Prop :=
  res.1 = ⟨(slice content c count).length, slice content c count⟩ ∧
    Holds content pos res.2 (c + (slice content c count).length)

theorem holds_bounded (h : Serves src content pos) (hb : Holds content pos b c) :
    c + b.bufferData ≤ content.length := by
  have := h.bounded b.stream
  have := hb.ahead
  omega

/-- A pass that drains the buffer away from the end fetches at least one more
byte behind what it has copied. -/
theorem fetch_pass (h : Serves src content pos) {r : Reading σ}
    (hb : Holds content pos r.self c) (hlt : r.self.bufferData < r.count)
    (hend : src.end r.self.stream = false) :
    ∃ r', readPass src r = .ok (.again r') ∧
      r'.copied = r.copied ++ slice content c r.self.bufferData ∧
      r'.count = r.count - r.self.bufferData ∧
      Holds content pos r'.self (c + r.self.bufferData) ∧
      content.length - pos r'.self.stream < content.length - pos r.self.stream := by
  have hpart := hb.part (Nat.le_refl _)
  have hne : pos r.self.stream ≠ content.length := by
    intro he
    rw [(h.ended r.self.stream).mpr he] at hend
    cases hend
  have hle := h.bounded r.self.stream
  obtain ⟨data, s', hread, hpos, hsize, hprefix, hnext⟩ :=
    h.read r.self.stream r.self.bufferSize (by omega) hb.positive
  obtain ⟨buffer, hstore⟩ : ∃ buffer, store r.self.buffer 0 data = .ok buffer :=
    ⟨_, store_ok (by have := hb.room; omega)⟩
  have hword : toWord data.length = data.length :=
    toWord_nat (by have := hb.small; omega)
  have hret : ¬ (data.length : Int) = -1 := by omega
  refine ⟨_, by rw [readPass_fetch hlt hpart hend hread hstore, if_neg hret], rfl, rfl, ?_, ?_⟩
  · rw [hword]
    exact hb.emptied.refilled rfl hprefix hnext hstore
  · dsimp only
    omega

/-- One pass over the loop of read: it delivers what was asked for, or drains
the buffer and fetches at least one more byte. -/
theorem read_pass (h : Serves src content pos) {count : Nat} (r : Reading σ)
    (hr : Progress content pos c count r) :
    (∃ r', readPass src r = .ok (.again r') ∧ Progress content pos c count r' ∧
      content.length - pos r'.self.stream < content.length - pos r.self.stream) ∨
    ∃ res, readPass src r = .ok (.leave res) ∧ Delivered content pos c count res := by
  obtain ⟨done, hcopied, hcount, hb⟩ := hr
  have hbound := holds_bounded h hb
  by_cases hlt : r.self.bufferData < r.count
  · have hall : r.copied ++ slice content (c + done) r.self.bufferData =
        slice content c (done + r.self.bufferData) := by rw [hcopied, slice_append]
    cases hend : src.end r.self.stream with
    | true =>
      right
      have hpos := (h.ended r.self.stream).mp hend
      have hahead := hb.ahead
      have hclip : slice content c count = slice content c (done + r.self.bufferData) :=
        slice_clip (by omega) (by omega)
      refine ⟨_, readPass_end hlt (hb.part (Nat.le_refl _)) hend, ?_⟩
      rw [hall]
      refine ⟨by rw [hclip], ?_⟩
      rw [hclip, slice_inside (by omega), ← Nat.add_assoc]
      exact hb.emptied
    | false =>
      left
      obtain ⟨r', hpass, hcopied', hcount', hb', hless⟩ := fetch_pass h hb hlt hend
      refine ⟨r', hpass, ⟨done + r.self.bufferData, hcopied'.trans hall, ?_, ?_⟩, hless⟩
      · omega
      · rw [← Nat.add_assoc]
        exact hb'
  · right
    have hpart := hb.part (n := r.count) (by omega)
    refine ⟨_, readPass_deliver (by omega) hpart, ?_⟩
    rw [hcopied, slice_append, hcount]
    refine ⟨rfl, ?_⟩
    have hadv := hb.advance (n := r.count) (by omega)
    rw [Nat.add_assoc, hcount] at hadv
    rw [slice_inside (by omega)]
    exact hadv

/-- A read delivers exactly the next bytes of the content. -/
theorem read_delivers (h : Serves src content pos) (hb : Holds content pos b c)
    {fuel : Nat} (hf : content.length < fuel) (count : Nat) :
    ∃ b', read src fuel b count =
        .ok (⟨(slice content c count).length, slice content c count⟩, b') ∧
      Holds content pos b' (c + (slice content c count).length) := by
  have hne : ¬ b.bufferSize = 0 := by have := hb.positive; omega
  obtain ⟨⟨res, b'⟩, hrun, hres, hb'⟩ := loop_total
    (P := Progress content pos c count) (Q := Delivered content pos c count)
    (fun r => content.length - pos r.self.stream) (read_pass h) fuel ⟨b, count, []⟩
    ⟨0, by simp [slice], by simp, by simpa using hb⟩ (by dsimp only; omega)
  refine ⟨b', ?_, hb'⟩
  simp only [BufferedInStream.read, hne, ↓reduceIte, hrun]
  exact congrArg (fun r => Except.ok (r, b')) hres

/-- The loop of seek reads and drops until the cursor is at the goal. -/
def Seeking (content : List Byte) (pos : σ → Nat) (goal : Nat)
    (p : BufferedInStream σ × Nat) : Prop :=
  ∃ c, Holds content pos p.1 c ∧ c + p.2 = goal

theorem seek_pass (h : Serves src content pos) {fuel goal : Nat} (hf : content.length < fuel)
    (hg : goal ≤ content.length) (p : BufferedInStream σ × Nat)
    (hp : Seeking content pos goal p ∧ p.2 < word) :
    (∃ p', seekPass src fuel p = .ok (.again p') ∧ (Seeking content pos goal p' ∧ p'.2 < word) ∧
      p'.2 < p.2) ∨
    ∃ res, seekPass src fuel p = .ok (.leave res) ∧ res.1 = true ∧
      Holds content pos res.2 goal := by
  obtain ⟨b, distance⟩ := p
  obtain ⟨⟨c, hb, hgoal⟩, hdw⟩ := hp
  dsimp only at hb hgoal hdw
  by_cases hd : 0 < distance
  · left
    have hpos := hb.positive
    have hne : ¬ b.bufferSize = 0 := by omega
    obtain ⟨n, hn⟩ : ∃ n, n = if b.bufferSize < distance then b.bufferSize else distance :=
      ⟨_, rfl⟩
    have hn0 : 0 < n ∧ n ≤ distance := by
      rw [hn]
      split <;> omega
    obtain ⟨b', hread, hb'⟩ := read_delivers h hb hf n
    rw [slice_inside (by omega)] at hread hb'
    have hret : ¬ (n : Int) = -1 := by omega
    refine ⟨(b', distance - n), ?_, ⟨⟨c + n, hb', ?_⟩, ?_⟩, ?_⟩
    · simp only [seekPass, hd, hne, ↓reduceIte, ← hn, hread, ok_bind, hret]
      rw [toWord_nat (by omega), subWord_eq hdw hn0.2]
      rfl
    · dsimp only
      omega
    · dsimp only
      omega
    · dsimp only
      omega
  · right
    refine ⟨(true, b), ?_, rfl, ?_⟩
    · simp only [seekPass, hd, ↓reduceIte]
      rfl
    · have : c = goal := by omega
      exact this ▸ hb

/-- Seeking forward inside the content moves the cursor there. -/
theorem seek_on (h : Serves src content pos) (hb : Holds content pos b c) {fuel : Nat}
    (hf : content.length < fuel) {distance : Nat} (hw : distance < word)
    (hd : c + distance ≤ content.length) :
    ∃ b', seekOn src fuel b distance = .ok (true, b') ∧ Holds content pos b' (c + distance) := by
  by_cases h0 : distance = 0
  · subst h0
    exact ⟨b, rfl, hb⟩
  · obtain ⟨⟨ok, b'⟩, hrun, hok, hb'⟩ := loop_total
      (P := fun p => Seeking content pos (c + distance) p ∧ p.2 < word)
      (Q := fun res : Bool × BufferedInStream σ =>
        res.1 = true ∧ Holds content pos res.2 (c + distance))
      Prod.snd (seek_pass h hf hd) fuel (b, distance) ⟨⟨c, hb, rfl⟩, hw⟩ (by dsimp only; omega)
    refine ⟨b', ?_, hb'⟩
    simp only [seekOn, h0, ↓reduceIte, hrun]
    exact congrArg (fun ok => Except.ok (ok, b')) hok

theorem seek_targets (h : Serves src content pos) (hb : Holds content pos b c) {fuel : Nat}
    (hf : content.length < fuel) {distance : Nat} (hw : distance < word) (whence : StreamWhence)
    (hd : target c distance whence ≤ content.length) :
    ∃ b', seek src fuel b distance whence = .ok (true, b') ∧
      Holds content pos b' (target c distance whence) := by
  cases whence with
  | current => exact seek_on h hb hf hw hd
  | begin =>
    obtain ⟨s', hs, hpos⟩ := h.rewind b.stream
    obtain ⟨b', hrun, hb'⟩ := seek_on h (hb.rewound hpos) hf hw (by simpa [target] using hd)
    refine ⟨b', ?_, by simpa [target] using hb'⟩
    simp only [BufferedInStream.seek, hs, ok_bind, ↓reduceIte, hrun]

theorem end_iff (h : Serves src content pos) (hb : Holds content pos b c) :
    BufferedInStream.end src b = (c == content.length) := by
  have hbound := holds_bounded h hb
  have hahead := hb.ahead
  apply Bool.eq_iff_iff.mpr
  simp only [BufferedInStream.end, Bool.and_eq_true, h.ended, beq_iff_eq]
  omega

/-- One call on the buffered stream answers as the cursor does and leaves the
cursor where the plain one is. -/
theorem call_simulates (h : Serves src content pos) (hb : Holds content pos b c) {fuel : Nat}
    (hf : content.length < fuel) {op : Call} {ops : List Call}
    (hw : Within content c (op :: ops)) :
    ∃ b', (inStream src fuel).call b op = .ok ((Cursor.call content c op).1, b') ∧
      Holds content pos b' (Cursor.call content c op).2 := by
  cases op with
  | read count =>
    obtain ⟨b', hrun, hb'⟩ := read_delivers h hb hf count
    exact ⟨b', by simp [InStream.call, inStream, hrun, Cursor.call], hb'⟩
  | «end» =>
    refine ⟨b, ?_, hb⟩
    simp [InStream.call, inStream, end_iff h hb, Cursor.call]
  | seek distance whence =>
    obtain ⟨b', hrun, hb'⟩ := seek_targets h hb hf hw.1.1 whence hw.1.2
    exact ⟨b', by simp [InStream.call, inStream, hrun, Cursor.call], hb'⟩

theorem calls_simulate (h : Serves src content pos) (hb : Holds content pos b c) {fuel : Nat}
    (hf : content.length < fuel) {ops : List Call} (hw : Within content c ops) :
    (inStream src fuel).calls b ops = .ok (Cursor.calls content c ops) := by
  induction ops generalizing b c with
  | nil => rfl
  | cons op ops ih =>
    obtain ⟨b', hcall, hb'⟩ := call_simulates h hb hf hw
    simp [InStream.calls, hcall, ih hb' hw.2, Cursor.calls]

/-- Whatever the buffer size and however the source fragments its reads, a
client of the buffered stream sees a plain cursor over the content. -/
theorem buffered_in_is_cursor (h : Serves src content pos) {s : σ} (h0 : pos s = 0)
    {size : Nat} (hs : 1 ≤ size) (hw : size < word) (ops : List Call)
    (hops : Within content 0 ops) {fuel : Nat} (hf : content.length < fuel) :
    (inStream src fuel).calls (init s size) ops = .ok (Cursor.calls content 0 ops) :=
  calls_simulate h (init_holds h0 hs hw) hf hops

/-- A buffer of two over a source that delivers three bytes at a time. -/
theorem buffered_in_is_cursor_five :
    (inStream (pieces [1, 2, 3, 4, 5] 3) 9).calls (init 0 2)
        [.read 1, .seek 2 .current, .end, .read 9, .end, .seek 1 .begin, .read 2] =
      .ok [.read ⟨1, [1]⟩, .flag true, .flag false, .read ⟨2, [4, 5]⟩, .flag true, .flag true,
        .read ⟨2, [2, 3]⟩] :=
  buffered_in_is_cursor (pieces_serves [1, 2, 3, 4, 5] 3 (by decide)) rfl (by decide) (by decide) _
    (by simp [Within, Cursor.call, Cursor.target, Cursor.slice]; decide) (by decide)

end CkCore.Proofs.BufferedIn
