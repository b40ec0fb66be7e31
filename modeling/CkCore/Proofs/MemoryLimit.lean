import CkCore.Lib.System
import CkCore.Proofs.MemoryOut

namespace CkCore.Proofs.MemoryLimit
open Lib MemoryOutStream MemoryOut

/-- Streams and the writes that return. -/
def streams (alloc : Alloc) : System MemoryOutStream (List Byte) where
  init self := ∃ size, size < word ∧ self = init alloc size
  step self data self' := data.length < word ∧ ∃ fuel r, write alloc fuel self data = .ok (r, self')

/-- The growth loop comes to an end with room for `count` bytes more, and every
new buffer is larger than the one copied into it. -/
structure Grows (alloc : Alloc) (stream : MemoryOutStream) (count : Nat) : Prop where
  room : ∃ fuel grown, loop (growPass alloc count) fuel stream = .ok (true, grown) ∧
    stream.bufferPos + count ≤ grown.bufferSize
  larger : ∀ m m', Passes (growPass alloc count) stream m →
    growPass alloc count m = .ok (.again m') → m.bufferSize < m'.bufferSize

/-- Or the write fails and leaves the stream as it was. -/
def Sound (alloc : Alloc) (self : MemoryOutStream) (data : List Byte) : Prop :=
  Grows alloc self data.length ∨ ∃ fuel, write alloc fuel self data = .ok (-1, self)

/-- The size can be doubled until there is room for `n` bytes, below 2^32. -/
def Fits (n bufferSize : Nat) : Prop :=
  ∃ k, n ≤ doubled bufferSize k ∧ doubled bufferSize k < word

variable {alloc : Alloc} {self : MemoryOutStream} {n count : Nat} {bytes data : List Byte}

theorem doubled_zero (size : Nat) : doubled size 0 = size := Nat.mul_one size

theorem doubled_twice (size k : Nat) : doubled (size * 2) k = doubled size (k + 1) := by
  induction k with
  | zero => rw [doubled_succ, doubled_zero, doubled_zero]
  | succ k ih => rw [doubled_succ, ih, ← doubled_succ]

theorem le_doubled (size k : Nat) : size ≤ doubled size k := by
  induction k with
  | zero => exact Nat.le_of_eq (doubled_zero size).symm
  | succ k ih =>
    rw [doubled_succ]
    omega

/-- There is room already, or doubling once leads to it. -/
theorem fits_iff {size : Nat} (hs : size < word) :
    Fits n size ↔ n ≤ size ∨ size * 2 < word ∧ Fits n (size * 2) := by
  constructor
  · rintro ⟨k, hn, hk⟩
    cases k with
    | zero =>
      rw [doubled_zero] at hn
      exact Or.inl hn
    | succ k =>
      rw [← doubled_twice] at hn hk
      exact Or.inr ⟨Nat.lt_of_le_of_lt (le_doubled _ k) hk, k, hn, hk⟩
  · rintro (hn | ⟨_, k, hn, hk⟩)
    · exact ⟨0, by rwa [doubled_zero], by rwa [doubled_zero]⟩
    · exact ⟨k + 1, by rwa [← doubled_twice], by rwa [← doubled_twice]⟩

/-- Where doubling leads to room the loop comes to it. -/
theorem loop_grows (ha : Succeeds alloc) (h : Stores self bytes)
    (hadd : addWord self.bufferPos count = n) (hfits : Fits n self.bufferSize) :
    ∃ fuel grown, loop (growPass alloc count) fuel self = .ok (true, grown) ∧
      n ≤ grown.bufferSize := by
  obtain ⟨k, hk, hword⟩ := hfits
  induction k generalizing self with
  | zero =>
    rw [doubled_zero] at hk
    rcases grow_cases ha h count with ⟨_, hpass⟩ | ⟨hless, _⟩ | ⟨hless, _⟩
    · exact ⟨1, self, loop_leave hpass, hk⟩
    · omega
    · omega
  | succ k ih =>
    rw [← doubled_twice] at hk hword
    have hle := le_doubled (self.bufferSize * 2) k
    rcases grow_cases ha h count with ⟨hroom, hpass⟩ | ⟨_, _, stored, hpass, hstores⟩ | ⟨_, hw, _⟩
    · exact ⟨1, self, loop_leave hpass, by omega⟩
    · obtain ⟨fuel, grown, hloop, hn⟩ := ih hstores hadd hk hword
      exact ⟨fuel + 1, grown, by rw [loop_again hpass, hloop], hn⟩
    · omega

/-- Where it does not, the loop does not return. -/
theorem loop_overruns (ha : Succeeds alloc) (h : Stores self bytes)
    (hfits : ¬ Fits (addWord self.bufferPos count) self.bufferSize) (fuel : Nat)
    (r : Bool × MemoryOutStream) : loop (growPass alloc count) fuel self ≠ .ok r := by
  induction fuel generalizing self with
  | zero => exact nofun
  | succ fuel ih =>
    rw [fits_iff h.small, not_or] at hfits
    rcases grow_cases ha h count with ⟨hroom, _⟩ | ⟨_, hw, stored, hpass, hstores⟩ | ⟨_, _, hpass⟩
    · exact absurd hroom hfits.1
    · rw [loop_again hpass]
      exact ih hstores fun hagain => hfits.2 ⟨hw, hagain⟩
    · rw [loop_fails hpass]
      exact nofun

theorem write_overruns (ha : Succeeds alloc) (h : Stores self bytes)
    (hfits : ¬ Fits (addWord self.bufferPos data.length) self.bufferSize) (fuel : Nat)
    (r : Int × MemoryOutStream) : write alloc fuel self data ≠ .ok r := by
  obtain ⟨_, hself, _, _⟩ := h.buffer
  have hsome : ¬ self.buffer = none := by simp [hself]
  intro hw
  rw [write, if_neg hsome] at hw
  obtain ⟨grown, hloop, _⟩ := bind_ok hw
  exact loop_overruns ha h hfits fuel grown hloop

theorem passes_store (ha : Succeeds alloc) (h : Stores self bytes) {m : MemoryOutStream}
    (hp : Passes (growPass alloc count) self m) : Stores m bytes := by
  refine hp.invariant (P := fun m => Stores m bytes) ?_ h
  intro m m' hm hpass
  rcases grow_cases ha hm count with ⟨_, hleave⟩ | ⟨_, _, stored, hagain, hstores⟩ | ⟨_, _, hfault⟩
  · rw [hleave] at hpass
    cases hpass
  · rw [hagain] at hpass
    cases hpass
    exact hstores
  · rw [hfault] at hpass
    cases hpass

/-- A pass that goes round again has doubled a buffer that is not empty. -/
theorem pass_larger (ha : Succeeds alloc) (h : Stores self bytes) {self' : MemoryOutStream}
    (hpass : growPass alloc count self = .ok (.again self')) :
    self.bufferSize < self'.bufferSize := by
  have hpositive := h.positive
  rcases grow_cases ha h count with ⟨_, hleave⟩ | ⟨_, _, stored, hagain, _⟩ | ⟨_, _, hfault⟩
  · rw [hleave] at hpass
    cases hpass
  · rw [hagain] at hpass
    cases hpass
    dsimp only
    omega
  · rw [hfault] at hpass
    cases hpass

/-- A loop that returned found room, by its own sum. -/
theorem loop_room (ha : Succeeds alloc) (h : Stores self bytes) {fuel : Nat}
    {r : Bool × MemoryOutStream} (hloop : loop (growPass alloc count) fuel self = .ok r) :
    r.1 = true ∧ Stores r.2 bytes := by
  obtain ⟨m, hp, hlast⟩ := loop_passes hloop
  have hm := passes_store ha h hp
  rcases grow_cases ha hm count with ⟨_, hleave⟩ | ⟨_, _, stored, hagain, _⟩ | ⟨_, _, hfault⟩
  · rw [hleave] at hlast
    cases hlast
    exact ⟨rfl, hm⟩
  · rw [hagain] at hlast
    cases hlast
  · rw [hfault] at hlast
    cases hlast

/-- A write that returned stored its bytes; with memory to be had none fails. -/
theorem write_returned (ha : Succeeds alloc) (h : Stores self bytes) {fuel : Nat} {r : Int}
    {self' : MemoryOutStream} (hw : write alloc fuel self data = .ok (r, self')) :
    r = data.length ∧ Stores self' (bytes ++ data) := by
  obtain ⟨_, hself, _, _⟩ := h.buffer
  have hsome : ¬ self.buffer = none := by simp [hself]
  rw [write, if_neg hsome] at hw
  obtain ⟨⟨room, grown⟩, hloop, hw⟩ := bind_ok hw
  obtain ⟨rfl, hgrown⟩ := loop_room ha h hloop
  dsimp only at hgrown hw
  rw [if_pos rfl] at hw
  obtain ⟨stored, hstore, hw⟩ := bind_ok hw
  obtain ⟨buffer, hbuffer, hlength, _⟩ := hgrown.buffer
  have hpos := hgrown.pos
  have hsmall := hgrown.small
  have hinside := (store_inside hstore).1
  rw [hbuffer, Option.getD_some] at hinside hstore
  have hroom : bytes.length + data.length ≤ grown.bufferSize := by omega
  obtain ⟨buffer', stored', hbuffer', hstore', hstores⟩ := hgrown.appended hroom
  rw [hbuffer] at hbuffer'
  cases hbuffer'
  rw [hstore] at hstore'
  cases hstore'
  have hadd : addWord grown.bufferPos data.length = bytes.length + data.length := by
    rw [hpos, addWord_eq (by omega)]
  cases hw
  rw [hadd]
  exact ⟨rfl, hstores⟩

theorem reached_stores (ha : Succeeds alloc) {meets : MemoryOutStream → List Byte → Prop}
    (h : (streams alloc).Reached meets self) : ∃ bytes, Stores self bytes := by
  refine h.invariant (P := fun self => ∃ bytes, Stores self bytes) ?_ ?_
  · rintro self ⟨size, hs, rfl⟩
    exact ⟨[], (init_empty ha hs).1⟩
  · rintro self data self' ⟨bytes, hstores⟩ _ ⟨_, fuel, r, hw⟩
    exact ⟨bytes ++ data, (write_returned ha hstores hw).2⟩

theorem sound_iff (ha : Succeeds alloc) (h : Stores self bytes) :
    Sound alloc self data ↔ Fits (self.bufferPos + data.length) self.bufferSize := by
  constructor
  · rintro (hgrows | ⟨fuel, hw⟩)
    · obtain ⟨fuel, grown, hloop, hroom⟩ := hgrows.room
      have hsmall := (loop_room ha h hloop).2.small
      dsimp only at hsmall
      by_cases hfits : Fits (self.bufferPos + data.length) self.bufferSize
      · exact hfits
      · rw [← addWord_eq (by omega)] at hfits
        exact absurd hloop (loop_overruns ha h hfits fuel _)
    · have hcount := (write_returned ha h hw).1
      omega
  · intro hfits
    obtain ⟨k, hk, hword⟩ := hfits
    have hadd : addWord self.bufferPos data.length = self.bufferPos + data.length :=
      addWord_eq (Nat.lt_of_le_of_lt hk hword)
    refine Or.inl ⟨loop_grows ha h hadd ⟨k, hk, hword⟩, ?_⟩
    intro m m' hp hpass
    exact pass_larger ha (passes_store ha h hp) hpass

/-- In every stream that writes can lead to, the growth loop is sound just when
the size can be doubled until there is room without reaching 2^32. -/
theorem growth_sound_iff (ha : Succeeds alloc)
    (h : (streams alloc).Reached (fun _ _ => True) self) (data : List Byte) :
    Sound alloc self data ↔
      ∃ k, self.bufferPos + data.length ≤ doubled self.bufferSize k ∧
        doubled self.bufferSize k < word := by
  obtain ⟨bytes, hstores⟩ := reached_stores ha h
  exact sound_iff ha hstores

/-- Three bytes into a buffer of one. -/
theorem growth_sound_three :
    Sound (fun n => some (List.replicate n 0)) (init (fun n => some (List.replicate n 0)) 1)
      [1, 2, 3] := by
  have ha : Succeeds fun n => some (List.replicate n 0) :=
    fun n => ⟨List.replicate n 0, rfl, List.length_replicate⟩
  have hreached : (streams fun n => some (List.replicate n 0)).Reached (fun _ _ => True)
      (init (fun n => some (List.replicate n 0)) 1) := .start ⟨1, by decide, rfl⟩
  exact (growth_sound_iff ha hreached [1, 2, 3]).mpr ⟨2, by decide, by decide⟩

/-- A buffer of 2^31 bytes cannot be doubled, though 2^31 + 1 is a size. -/
theorem doubling_wraps : ∃ alloc self data, Succeeds alloc ∧
    (streams alloc).Reached (fun _ _ => True) self ∧ self.bufferPos + data.length < word ∧
    (∀ fuel r, write alloc fuel self data ≠ .ok r) ∧ ¬ Sound alloc self data := by
  have ha : Succeeds fun n => some (List.replicate n 0) :=
    fun n => ⟨List.replicate n 0, rfl, List.length_replicate⟩
  have hs : most < word := by decide
  obtain ⟨hstores, hsize⟩ := init_empty ha hs
  have hpos : (init (fun n => some (List.replicate n 0)) most).bufferPos = 0 := hstores.pos
  have hlength : (List.replicate (most + 1) (0 : Byte)).length = most + 1 := List.length_replicate
  have hfits : ¬ Fits (0 + (most + 1)) most := by
    rw [fits_iff hs]
    have hdouble : ¬ most * 2 < word := by decide
    simp [hdouble]
  have hsound : ¬ Sound (fun n => some (List.replicate n 0))
      (init (fun n => some (List.replicate n 0)) most) (List.replicate (most + 1) 0) := by
    rw [sound_iff ha hstores, hpos, hlength, hsize]
    exact hfits
  refine ⟨_, _, _, ha, .start ⟨most, hs, rfl⟩, ?_, ?_, hsound⟩
  · rw [hpos, hlength]
    decide
  · apply write_overruns ha hstores
    rw [hpos, hlength, hsize, addWord_eq (by decide)]
    exact hfits

end CkCore.Proofs.MemoryLimit
