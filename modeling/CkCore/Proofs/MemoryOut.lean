import CkCore.Model.MemoryStream

namespace CkCore.Proofs.MemoryOut
open Lib MemoryOutStream

/-- Memory never runs out. -/
def Succeeds (alloc : Alloc) : Prop := ∀ n, ∃ bytes, alloc n = some bytes ∧ bytes.length = n

/-- 2^31, the most bytes the stream is asked to take. -/
def most : Nat := 0x80000000

def doubled (size k : Nat) : Nat := size * Nat.pow 2 k

/-- The size is the initial one times the least power of two that makes room for
`n` bytes. -/
def Least (size n bufferSize : Nat) : Prop :=
  ∃ k, bufferSize = doubled size k ∧ n ≤ bufferSize ∧ ∀ j < k, doubled size j < n

/-- The answers to a sequence of writes and the stream after them. -/
def writes (alloc : Alloc) (fuel : Nat) (self : MemoryOutStream) :
    List (List Byte) → Except Fault (List Int × MemoryOutStream)
  | [] => .ok ([], self)
  | data :: rest => do
    let (r, self) ← write alloc fuel self data
    let (rs, self) ← writes alloc fuel self rest
    return (r :: rs, self)

/-- The stream has a buffer of its size, at the front of which stand exactly
these bytes. -/
structure Stores (m : MemoryOutStream) (bytes : List Byte) : Prop where
  buffer : ∃ buffer, m.buffer = some buffer ∧ buffer.length = m.bufferSize ∧
    buffer.take m.bufferPos = bytes
  pos : m.bufferPos = bytes.length
  inside : bytes.length ≤ m.bufferSize
  positive : 0 < m.bufferSize
  small : m.bufferSize < word

/-- Where the growth loop stands that makes room for `n` bytes. -/
structure Growing (size n : Nat) (bytes : List Byte) (m : MemoryOutStream) : Prop where
  stores : Stores m bytes
  size : ∃ k, m.bufferSize = doubled size k ∧ ∀ j < k, doubled size j < n

variable {alloc : Alloc} {self : MemoryOutStream} {size n : Nat} {bytes data : List Byte}

theorem doubled_succ (size k : Nat) : doubled size (k + 1) = doubled size k * 2 :=
  (Nat.mul_assoc _ _ _).symm

/-- A new stream has a buffer, of 1024 bytes unless it is asked for a size. -/
theorem init_empty (ha : Succeeds alloc) (hs : size < word) :
    Stores (init alloc size) [] ∧
      (init alloc size).bufferSize = if size = 0 then 1024 else size := by
  have hword : 1024 < word := by decide
  by_cases hzero : size = 0
  · obtain ⟨buffer, hb, hl⟩ := ha 1024
    simp only [init, hzero, ↓reduceIte, hb]
    exact ⟨⟨⟨buffer, rfl, hl, rfl⟩, rfl, Nat.zero_le _, by dsimp only; omega, hword⟩, trivial⟩
  · obtain ⟨buffer, hb, hl⟩ := ha size
    simp only [init, hzero, ↓reduceIte, hb]
    exact ⟨⟨⟨buffer, rfl, hl, rfl⟩, rfl, Nat.zero_le _, by dsimp only; omega, hs⟩, trivial⟩

theorem init_stores (ha : Succeeds alloc) (hs : 1 ≤ size) (hm : size ≤ most) :
    Stores (init alloc size) [] ∧ Least size 0 (init alloc size).bufferSize := by
  have hne : ¬ size = 0 := by omega
  have hword : most < word := by decide
  obtain ⟨hstores, hsize⟩ := init_empty ha (Nat.lt_of_le_of_lt hm hword)
  rw [if_neg hne] at hsize
  refine ⟨hstores, 0, hsize.trans (Nat.mul_one size).symm, Nat.zero_le _, ?_⟩
  intro j hj
  omega

/-- Moving to new memory of twice the size keeps what is stored. -/
theorem Stores.moved (h : Stores self bytes) (hw : self.bufferSize * 2 < word)
    {newBuffer : List Byte} (hnew : newBuffer.length = self.bufferSize * 2) :
    ∃ buffer stored, self.buffer = some buffer ∧ load buffer 0 self.bufferSize = .ok buffer ∧
      store newBuffer 0 buffer = .ok stored ∧
      Stores { self with buffer := some stored, bufferSize := self.bufferSize * 2 } bytes := by
  obtain ⟨buffer, hbuffer, hlength, htake⟩ := h.buffer
  have hpos := h.pos
  have hinside := h.inside
  have hpositive := h.positive
  have hload : load buffer 0 self.bufferSize = .ok buffer := by
    rw [← hlength]
    exact load_all buffer
  obtain ⟨stored, hstore⟩ : ∃ stored, store newBuffer 0 buffer = .ok stored :=
    ⟨_, store_ok (by omega)⟩
  have hfront : stored.take (0 + buffer.length) = newBuffer.take 0 ++ buffer :=
    store_take hstore
  have hkept : stored.take self.bufferPos = bytes := by
    rw [Nat.zero_add, List.take_zero, List.nil_append] at hfront
    rw [← htake, ← hfront, List.take_take, Nat.min_eq_left (by omega)]
  refine ⟨buffer, stored, hbuffer, hload, hstore,
    ⟨stored, rfl, (store_length hstore).trans hnew, hkept⟩, hpos, ?_, ?_, hw⟩
  · dsimp only
    omega
  · dsimp only
    omega

/-- Where there is room the data goes right behind what is stored. -/
theorem Stores.appended (h : Stores self bytes)
    (hroom : bytes.length + data.length ≤ self.bufferSize) :
    ∃ buffer stored, self.buffer = some buffer ∧ store buffer self.bufferPos data = .ok stored ∧
      Stores { self with buffer := some stored, bufferPos := bytes.length + data.length }
        (bytes ++ data) := by
  obtain ⟨buffer, hbuffer, hlength, htake⟩ := h.buffer
  have hpos := h.pos
  obtain ⟨stored, hstore⟩ : ∃ stored, store buffer self.bufferPos data = .ok stored :=
    ⟨_, store_ok (by omega)⟩
  have hfront := store_take hstore
  rw [htake, hpos] at hfront
  refine ⟨buffer, stored, hbuffer, hstore,
    ⟨stored, rfl, (store_length hstore).trans hlength, hfront⟩, ?_, ?_, h.positive, h.small⟩
  · rw [List.length_append]
  · rw [List.length_append]
    exact hroom

/-- A pass leaves where the sum says there is room, and doubles the buffer
otherwise; a size that wraps around is too small for what is copied into it. -/
theorem grow_cases (ha : Succeeds alloc) (h : Stores self bytes) (count : Nat) :
    addWord self.bufferPos count ≤ self.bufferSize ∧
      growPass alloc count self = .ok (.leave (true, self)) ∨
    self.bufferSize < addWord self.bufferPos count ∧ self.bufferSize * 2 < word ∧
      (∃ stored, growPass alloc count self =
          .ok (.again { self with buffer := some stored, bufferSize := self.bufferSize * 2 }) ∧
        Stores { self with buffer := some stored, bufferSize := self.bufferSize * 2 } bytes) ∨
    self.bufferSize < addWord self.bufferPos count ∧ word ≤ self.bufferSize * 2 ∧
      growPass alloc count self = .error .outOfBounds := by
  by_cases hroom : addWord self.bufferPos count ≤ self.bufferSize
  · left
    refine ⟨hroom, ?_⟩
    rw [growPass, if_neg (Nat.not_lt_of_le hroom)]
    rfl
  · right
    have hless := Nat.lt_of_not_le hroom
    by_cases hw : self.bufferSize * 2 < word
    · left
      have hmul : mulWord self.bufferSize 2 = self.bufferSize * 2 := mulWord_eq hw
      obtain ⟨newBuffer, hnew, hlength⟩ := ha (self.bufferSize * 2)
      obtain ⟨buffer, stored, hbuffer, hload, hstore, hmoved⟩ := h.moved hw hlength
      refine ⟨hless, hw, stored, ?_, hmoved⟩
      rw [growPass, if_pos hless, hmul]
      simp only [hnew, hbuffer, Option.getD_some, hload, ok_bind, hstore]
      rfl
    · right
      refine ⟨hless, Nat.le_of_not_lt hw, ?_⟩
      obtain ⟨buffer, hbuffer, hsize, _⟩ := h.buffer
      obtain ⟨newBuffer, hnew, hlength⟩ := ha (mulWord self.bufferSize 2)
      have hsmall := h.small
      have hwrap : mulWord self.bufferSize 2 = self.bufferSize * 2 - word := by
        unfold mulWord
        rw [Nat.mod_eq_sub_mod (Nat.le_of_not_lt hw), Nat.mod_eq_of_lt (by omega)]
      have hload : load buffer 0 self.bufferSize = .ok buffer := by
        rw [← hsize]
        exact load_all buffer
      have hstore : store newBuffer 0 buffer = .error .outOfBounds := store_out (by omega)
      rw [growPass, if_pos hless]
      simp only [hnew, hbuffer, Option.getD_some, hload, ok_bind, hstore]
      rfl

/-- A pass of the growth loop doubles the buffer under the bytes in it, or there
is room. -/
theorem grow_pass (ha : Succeeds alloc) (hn : bytes.length + data.length ≤ most)
    (self : MemoryOutStream) (h : Growing size (bytes.length + data.length) bytes self) :
    (∃ self', growPass alloc data.length self = .ok (.again self') ∧
      Growing size (bytes.length + data.length) bytes self' ∧
      most - self'.bufferSize < most - self.bufferSize) ∨
    ∃ res, growPass alloc data.length self = .ok (.leave res) ∧ res.1 = true ∧
      Stores res.2 bytes ∧ Least size (bytes.length + data.length) res.2.bufferSize := by
  obtain ⟨k, hk, hleast⟩ := h.size
  have hpositive := h.stores.positive
  have hword : most < word ∧ most + most = word := by decide
  have hadd : addWord self.bufferPos data.length = bytes.length + data.length := by
    rw [h.stores.pos, addWord_eq (by omega)]
  rcases grow_cases ha h.stores data.length with
    ⟨hroom, hpass⟩ | ⟨hless, _, stored, hpass, hmoved⟩ | ⟨hless, hwrap, _⟩
  · right
    exact ⟨(true, self), hpass, rfl, h.stores, k, hk, hadd ▸ hroom, hleast⟩
  · left
    refine ⟨_, hpass, ⟨hmoved, k + 1, ?_, ?_⟩, ?_⟩
    · rw [doubled_succ, ← hk]
    · intro j hj
      rcases Nat.lt_succ_iff_lt_or_eq.mp hj with hlt | rfl
      · exact hleast j hlt
      · omega
    · dsimp only
      omega
  · omega

/-- A write stores its bytes behind those that were there, in a buffer no larger
than it has to be. -/
theorem write_stores (ha : Succeeds alloc) (h : Stores self bytes)
    (hleast : Least size bytes.length self.bufferSize)
    (hn : bytes.length + data.length ≤ most) {fuel : Nat} (hf : most < fuel) :
    ∃ self', write alloc fuel self data = .ok (data.length, self') ∧
      Stores self' (bytes ++ data) ∧
      Least size (bytes ++ data).length self'.bufferSize := by
  obtain ⟨k, hk, _, hbelow⟩ := hleast
  have hgrowing : Growing size (bytes.length + data.length) bytes self :=
    ⟨h, k, hk, fun j hj => Nat.lt_of_lt_of_le (hbelow j hj) (Nat.le_add_right _ _)⟩
  obtain ⟨⟨room, grown⟩, hloop, rfl, hgrown, hleastGrown⟩ :=
    loop_total (P := Growing size (bytes.length + data.length) bytes)
      (fun self => most - self.bufferSize) (grow_pass ha hn) fuel self
        hgrowing (by omega)
  dsimp only at hgrown hleastGrown
  have hroom : bytes.length + data.length ≤ grown.bufferSize := by
    obtain ⟨_, _, hroom, _⟩ := hleastGrown
    exact hroom
  obtain ⟨buffer, stored, hbuffer, hstore, hstored⟩ := hgrown.appended hroom
  obtain ⟨_, hself, _, _⟩ := h.buffer
  have hsome : ¬ self.buffer = none := by simp [hself]
  have hword : most < word := by decide
  have hadd : addWord grown.bufferPos data.length = bytes.length + data.length := by
    rw [hgrown.pos, addWord_eq (by omega)]
  refine ⟨{ grown with buffer := some stored, bufferPos := bytes.length + data.length }, ?_,
    hstored, ?_⟩
  · simp only [write, hsome, ↓reduceIte, hloop, ok_bind, hbuffer, Option.getD_some, hstore, hadd]
    rfl
  · rw [List.length_append]
    exact hleastGrown

theorem writes_store (ha : Succeeds alloc) {fuel : Nat} (hf : most < fuel)
    (datas : List (List Byte)) (h : Stores self bytes)
    (hleast : Least size bytes.length self.bufferSize)
    (hn : bytes.length + datas.flatten.length ≤ most) :
    ∃ self', writes alloc fuel self datas =
        .ok (datas.map fun data => (data.length : Int), self') ∧
      Stores self' (bytes ++ datas.flatten) ∧
      Least size (bytes ++ datas.flatten).length self'.bufferSize := by
  induction datas generalizing self bytes with
  | nil => exact ⟨self, rfl, by simpa using h, by simpa using hleast⟩
  | cons data datas ih =>
    simp only [List.flatten_cons, List.length_append] at hn
    obtain ⟨self₁, hwrite, hstores, hleast₁⟩ :=
      write_stores ha h hleast (by omega : bytes.length + data.length ≤ most) hf
    obtain ⟨self₂, hrest, hstores₂, hleast₂⟩ :=
      ih hstores hleast₁ (by rw [List.length_append]; omega)
    refine ⟨self₂, ?_, ?_, ?_⟩
    · simp [writes, hwrite, hrest]
    · simpa using hstores₂
    · simpa using hleast₂

/-- However the bytes are cut into writes, a stream that started with a buffer
of `size` holds all of them in order, in a buffer that was doubled no more often
than it had to be. -/
theorem writes_accumulate (ha : Succeeds alloc) (hs : 1 ≤ size) (hm : size ≤ most)
    (datas : List (List Byte)) (hn : datas.flatten.length ≤ most) {fuel : Nat}
    (hf : most < fuel) :
    ∃ self', writes alloc fuel (init alloc size) datas =
        .ok (datas.map fun data => (data.length : Int), self') ∧
      self'.count = datas.flatten.length ∧
      (∃ buffer, self'.data = some buffer ∧ buffer.length = self'.bufferSize ∧
        buffer.take self'.count = datas.flatten) ∧
      self'.count ≤ self'.bufferSize ∧
      Least size datas.flatten.length self'.bufferSize := by
  obtain ⟨hstores, hleast⟩ := init_stores ha hs hm
  obtain ⟨self', hrun, hstores', hleast'⟩ :=
    writes_store ha hf datas hstores hleast (by simpa using hn)
  rw [List.nil_append] at hstores' hleast'
  have hpos := hstores'.pos
  have hinside := hstores'.inside
  refine ⟨self', hrun, hpos, hstores'.buffer, ?_, hleast'⟩
  unfold count
  omega

/-- Eight bytes into a buffer of one, the sizes being those of the tests. -/
theorem writes_accumulate_eight :
    ∃ self', writes (fun n => some (List.replicate n 0)) (most + 1)
        (init (fun n => some (List.replicate n 0)) 1) [[1, 2, 3], [4, 5, 6, 7, 8]] =
          .ok ([3, 5], self') ∧ self'.count = 8 := by
  have hsucceeds : Succeeds fun n => some (List.replicate n 0) :=
    fun n => ⟨List.replicate n 0, rfl, List.length_replicate⟩
  obtain ⟨self', hrun, hcount, _⟩ := writes_accumulate hsucceeds (Nat.le_refl 1) (by decide)
    [[1, 2, 3], [4, 5, 6, 7, 8]] (by decide) (Nat.lt_succ_self most)
  exact ⟨self', hrun, hcount⟩

end CkCore.Proofs.MemoryOut
