import CkCore.Lib.Blocks
import CkCore.Lib.System
import CkCore.Model.BufferedStream

namespace CkCore.Proofs.BufferedOut
open Lib BufferedOutStream

variable {τ : Type} {out : OutStream τ} {received : τ → List Byte}
  {b : BufferedOutStream τ} {data : List Byte}

/-- The buffer has its size and the write position lies inside it. -/
structure Fits (b : BufferedOutStream τ) : Prop where
  room : b.buffer.length = b.bufferSize
  positive : 0 < b.bufferSize
  small : b.bufferSize < word
  inside : b.bufferPos ≤ b.bufferSize

theorem init_fits {t : τ} {size : Nat} (hs : 1 ≤ size) (hw : size < word) :
    Fits (init t size) := by
  have hne : ¬ size = 0 := by omega
  constructor <;> simp [init, hne, hw]
  omega

theorem Fits.pending_length (hb : Fits b) : (pending b).length = b.bufferPos := by
  have hr := hb.room
  have hi := hb.inside
  simp only [pending, List.length_take]
  omega

/-- The blocks a write of `data` has to hand to the underlying stream. -/
def due (b : BufferedOutStream τ) (data : List Byte) : List (List Byte) :=
  spills b.bufferSize (pending b ++ data)

/-- The outcome of a write whose blocks were all accepted. -/
structure Wrote (out : OutStream τ) (b : BufferedOutStream τ) (data : List Byte)
    (res : Int × BufferedOutStream τ) : Prop where
  count : res.1 = data.length
  fits : Fits res.2
  size : res.2.bufferSize = b.bufferSize
  took : out.Took b.stream (due b data) res.2.stream
  kept : pending res.2 = kept b.bufferSize (pending b ++ data)

/-- The outcome of a write one of whose blocks was refused: the blocks in front
of it were accepted, the reported count `k + remain` covers the part that was
copied for the refused block, and the buffer holds only the first `k` bytes. -/
structure Refused (out : OutStream τ) (b : BufferedOutStream τ) (data : List Byte)
    (res : Int × BufferedOutStream τ) : Prop where
  fits : Fits res.2
  size : res.2.bufferSize = b.bufferSize
  short : ∃ k remain, k + remain < data.length ∧ res.1 = partialCount (k + remain) ∧
    (k + remain = 0 ∨ 0 < remain) ∧
    ∃ done block t, done ++ [block] <+: due b data ∧ out.Took b.stream done t ∧
      out.write t block = .ok (-1, res.2.stream) ∧
      done.flatten ++ pending res.2 = pending b ++ data.take k

/-- Where the loop of write stands: some blocks are out, and the data still to
go spills the remaining ones. -/
structure Partway (out : OutStream τ) (b : BufferedOutStream τ) (data : List Byte)
    (w : Writing τ) : Prop where
  fits : Fits w.self
  size : w.self.bufferSize = b.bufferSize
  total : w.pos + w.count = data.length
  args : data.length < word
  fresh : w.pos = 0 ∨ w.self.bufferPos = 0
  noWrap : w.self.bufferPos + w.count < word
  progress : ∃ done, out.Took b.stream done w.self.stream ∧
    done.flatten ++ pending w.self = pending b ++ data.take w.pos ∧
    due b data = done ++ spills b.bufferSize (pending w.self ++ data.drop w.pos) ∧
    kept b.bufferSize (pending b ++ data) =
      kept b.bufferSize (pending w.self ++ data.drop w.pos)

/-- Where the loop of write stands as far as the buffer goes: some blocks are
out, and the data still to go spills the remaining ones. -/
structure Underway (b : BufferedOutStream τ) (data : List Byte) (done : List (List Byte))
    (w : Writing τ) : Prop where
  fits : Fits w.self
  size : w.self.bufferSize = b.bufferSize
  total : w.pos + w.count = data.length
  args : data.length < word
  fresh : w.pos = 0 ∨ w.self.bufferPos = 0
  noWrap : w.self.bufferPos + w.count < word
  flat : done.flatten ++ pending w.self = pending b ++ data.take w.pos
  due : due b data = done ++ spills b.bufferSize (pending w.self ++ data.drop w.pos)
  kept : kept b.bufferSize (pending b ++ data) =
    kept b.bufferSize (pending w.self ++ data.drop w.pos)

theorem underway_first (hb : Fits b) (hno : b.bufferPos + data.length < word) :
    Underway b data [] ⟨b, 0, data.length⟩ :=
  ⟨hb, rfl, Nat.zero_add _, by omega, Or.inl rfl, hno, by simp, by simp [due], by simp⟩

theorem Partway.underway {w : Writing τ} (h : Partway out b data w) :
    ∃ done, Underway b data done w ∧ out.Took b.stream done w.self.stream := by
  obtain ⟨done, htook, hflat, hdue, hkept⟩ := h.progress
  exact ⟨done, ⟨h.fits, h.size, h.total, h.args, h.fresh, h.noWrap, hflat, hdue, hkept⟩, htook⟩

theorem Underway.partway {w : Writing τ} {done : List (List Byte)} (h : Underway b data done w)
    (htook : out.Took b.stream done w.self.stream) : Partway out b data w :=
  ⟨h.fits, h.size, h.total, h.args, h.fresh, h.noWrap, done, htook, h.flat, h.due, h.kept⟩

/-- A write that fits is copied behind the pending bytes, and all of it is reported. -/
theorem Underway.keep {w : Writing τ} {done : List (List Byte)} (h : Underway b data done w)
    (out : OutStream τ) (hn : w.self.bufferPos + w.count ≤ w.self.bufferSize) :
    ∃ self, writePass out data w = .ok (.leave (data.length, self)) ∧ Fits self ∧
      self.bufferSize = b.bufferSize ∧ self.stream = w.self.stream ∧
      BufferedOut.due b data = done ∧
      pending self = Lib.kept b.bufferSize (pending b ++ data) := by
  have hargs := h.args
  have htotal := h.total
  have hroom := h.fits.room
  have hpl := h.fits.pending_length
  have hdue := h.due
  have hlen : (data.drop w.pos).length = w.count := by
    simp only [List.length_drop]
    omega
  have hload : load data w.pos w.count = .ok (data.drop w.pos) := by
    rw [load_ok (by omega), List.take_of_length_le (by omega)]
  obtain ⟨buffer, hstore⟩ : ∃ buffer,
      store w.self.buffer w.self.bufferPos (data.drop w.pos) = .ok buffer :=
    ⟨_, store_ok (by omega)⟩
  have hshort : (pending w.self ++ data.drop w.pos).length ≤ b.bufferSize := by
    rw [List.length_append, hpl, hlen, ← h.size]
    exact hn
  rw [spills_short hshort, List.append_nil] at hdue
  have hread := store_take hstore
  rw [hlen] at hread
  have hpass := writePass_keep out (by rw [addWord_eq h.noWrap]; exact hn) hload hstore
  rw [addWord_eq h.noWrap, addWord_eq (by omega), htotal] at hpass
  refine ⟨_, hpass, ⟨(store_length hstore).trans hroom, h.fits.positive, h.fits.small, hn⟩,
    h.size, rfl, hdue, ?_⟩
  rw [h.kept, kept_short hshort]
  exact hread

/-- The block a pass fills the buffer up to: the pending bytes and the next
`remain` bytes of the data. -/
structure Filled (b : BufferedOutStream τ) (data : List Byte) (w : Writing τ) (remain : Nat)
    (part block : List Byte) : Prop where
  free : w.self.bufferPos + remain = w.self.bufferSize
  next : part = (data.drop w.pos).take remain
  joined : block = pending w.self ++ part
  loaded : load data w.pos remain = .ok part
  stored : store w.self.buffer w.self.bufferPos part = .ok block
  whole : load block 0 w.self.bufferSize = .ok block
  length : block.length = b.bufferSize
  rest : pending w.self ++ data.drop w.pos = block ++ data.drop (w.pos + remain)
  more : data.drop (w.pos + remain) ≠ []

theorem Underway.filled {w : Writing τ} {done : List (List Byte)} (hw : Underway b data done w)
    (hn : w.self.bufferSize < w.self.bufferPos + w.count) :
    ∃ remain part block, Filled b data w remain part block := by
  have htotal := hw.total
  have hroom := hw.fits.room
  have hinside := hw.fits.inside
  have hpl := hw.fits.pending_length
  obtain ⟨remain, hfree⟩ : ∃ remain, w.self.bufferPos + remain = w.self.bufferSize :=
    ⟨w.self.bufferSize - w.self.bufferPos, Nat.add_sub_of_le hinside⟩
  obtain ⟨part, hpart⟩ : ∃ part, part = (data.drop w.pos).take remain := ⟨_, rfl⟩
  have hplen : part.length = remain := by
    rw [hpart, List.length_take, List.length_drop]
    omega
  obtain ⟨block, hblock⟩ : ∃ block, block = pending w.self ++ part := ⟨_, rfl⟩
  have hblen : block.length = w.self.bufferSize := by
    rw [hblock, List.length_append, hpl, hplen]
    exact hfree
  have hload : load data w.pos remain = .ok part := by
    rw [load_ok (by omega), hpart]
  have hstore : store w.self.buffer w.self.bufferPos part = .ok block := by
    rw [store_ok (by omega), hblock, pending, List.drop_of_length_le (by omega),
      List.append_nil]
  have hwhole : load block 0 w.self.bufferSize = .ok block := by
    rw [← hblen]
    exact load_all block
  have hrest : pending w.self ++ data.drop w.pos = block ++ data.drop (w.pos + remain) := by
    rw [hblock, List.append_assoc, hpart, ← List.drop_drop, List.take_append_drop]
  have hmore : data.drop (w.pos + remain) ≠ [] := by
    intro he
    have hnone := congrArg List.length he
    simp only [List.length_drop, List.length_nil] at hnone
    omega
  exact ⟨remain, part, block, hfree, hpart, hblock, hload, hstore, hwhole,
    hblen.trans hw.size, hrest, hmore⟩

/-- A write that does not fit fills the buffer up and hands it on. What comes
of it is up to the answer: a refused block ends the write, any other goes on
with an empty buffer. -/
theorem Underway.spill {w : Writing τ} {done : List (List Byte)} (hw : Underway b data done w)
    (out : OutStream τ) (hn : w.self.bufferSize < w.self.bufferPos + w.count) :
    ∃ block, ∀ res s, out.write w.self.stream block = .ok (res, s) →
      (res = -1 → ∃ remain self, writePass out data w =
          .ok (.leave (partialCount (w.pos + remain), self)) ∧ self.stream = s ∧ Fits self ∧
        self.bufferSize = b.bufferSize ∧ w.pos + remain < data.length ∧
        (w.pos + remain = 0 ∨ 0 < remain) ∧ done ++ [block] <+: BufferedOut.due b data ∧
        done.flatten ++ pending self = pending b ++ data.take w.pos) ∧
      (res ≠ -1 → ∃ w', writePass out data w = .ok (.again w') ∧ w'.self.stream = s ∧
        Underway b data (done ++ [block]) w' ∧
        w'.self.bufferPos + w'.count < w.self.bufferPos + w.count) := by
  obtain ⟨remain, part, block, hfill⟩ := hw.filled hn
  have hargs := hw.args
  have htotal := hw.total
  have hpos := hw.fits.positive
  have hsmall := hw.fits.small
  have hinside := hw.fits.inside
  have hsize := hw.size
  have hno := hw.noWrap
  have hflat := hw.flat
  have hdue := hw.due
  have hkept := hw.kept
  have hfree := hfill.free
  have hblen := hfill.length
  rw [hfill.rest, spills_block (by omega) hblen hfill.more] at hdue
  rw [hfill.rest, kept_block (by omega) hblen hfill.more] at hkept
  have hsub : subWord w.self.bufferSize w.self.bufferPos = remain := by
    rw [subWord_eq hsmall hinside, ← hfree, Nat.add_sub_cancel_left]
  have hspill := fun res s => @writePass_spill τ out data w part block
    (by rw [addWord_eq hno]; exact hn) (by rw [hsub]; exact hfill.loaded) hfill.stored block
    hfill.whole res s
  rw [hsub, addWord_eq (show w.pos + remain < word by omega),
    subWord_eq (show w.count < word by omega) (show remain ≤ w.count by omega)] at hspill
  refine ⟨block, fun res s hwrite => ?_⟩
  have hpass := hspill res s hwrite
  refine ⟨fun hret => ?_, fun hret => ?_⟩
  · rw [if_pos hret] at hpass
    refine ⟨remain, _, hpass, rfl, ⟨by rw [hblen, hw.size], hpos, hsmall, hinside⟩, hw.size,
      by omega, ?_, ?_, ?_⟩
    · have := hw.fresh
      omega
    · rw [hdue]
      exact ⟨_, by rw [List.append_assoc]; rfl⟩
    · rw [← hflat]
      congr 1
      exact store_front hfill.stored (Nat.le_refl _)
  · rw [if_neg hret] at hpass
    refine ⟨_, hpass, rfl, ?_, ?_⟩
    · refine ⟨⟨by dsimp only; omega, hpos, hsmall, Nat.zero_le _⟩, hw.size, by dsimp only; omega,
        hargs, Or.inr rfl, by dsimp only; omega, ?_, ?_, ?_⟩
      · rw [List.flatten_append, List.take_add, ← hfill.next, ← List.append_assoc, ← hflat,
          hfill.joined]
        simp [pending]
      · rw [hdue]
        simp [pending]
      · rw [hkept]
        simp [pending]
    · dsimp only
      omega

/-- With the sink still in step a write that fits is all accepted. -/
theorem keep_pass (w : Writing τ) (hw : Partway out b data w)
    (hn : w.self.bufferPos + w.count ≤ w.self.bufferSize) :
    ∃ res, writePass out data w = .ok (.leave res) ∧ Wrote out b data res := by
  obtain ⟨done, hunder, htook⟩ := hw.underway
  obtain ⟨self, hpass, hfits, hsize, hstream, hdue, hkept⟩ := hunder.keep out hn
  refine ⟨_, hpass, rfl, hfits, hsize, ?_, hkept⟩
  rw [hdue, hstream]
  exact htook

/-- A block that is handed on is accepted, and the rest goes on with an empty
buffer, or it is refused. -/
theorem spill_pass (ho : AllOrNothing out received) (w : Writing τ) (hw : Partway out b data w)
    (hn : w.self.bufferSize < w.self.bufferPos + w.count) :
    (∃ w', writePass out data w = .ok (.again w') ∧ Partway out b data w' ∧
      w'.self.bufferPos + w'.count < w.self.bufferPos + w.count) ∨
    ∃ res, writePass out data w = .ok (.leave res) ∧ Refused out b data res := by
  obtain ⟨done, hunder, htook⟩ := hw.underway
  obtain ⟨block, hspill⟩ := hunder.spill out hn
  rcases ho w.self.stream block with ⟨t', hwrite, _⟩ | ⟨t', hwrite, _⟩
  · right
    obtain ⟨remain, self, hpass, hstream, hfits, hsize, hshort, hfresh, hdue, hflat⟩ :=
      (hspill _ _ hwrite).1 rfl
    refine ⟨_, hpass, hfits, hsize, w.pos, remain, hshort, rfl, hfresh, done, block,
      w.self.stream, hdue, htook, ?_, hflat⟩
    rw [hwrite, hstream]
  · left
    have hret : ((block.length : Nat) : Int) ≠ -1 := by omega
    obtain ⟨w', hpass, hstream, hnext, hless⟩ := (hspill _ _ hwrite).2 hret
    refine ⟨w', hpass, hnext.partway ?_, hless⟩
    rw [hstream]
    exact htook.snoc hwrite

/-- Every write within the word range returns: either all of its blocks were
accepted, or one of them was refused. -/
theorem write_returns (ho : AllOrNothing out received) (hb : Fits b)
    (hno : b.bufferPos + data.length < word) (fuel : Nat)
    (hf : b.bufferPos + data.length < fuel) :
    ∃ res, write out fuel b data = .ok res ∧ (Wrote out b data res ∨ Refused out b data res) := by
  have hne : ¬ b.bufferSize = 0 := by have := hb.positive; omega
  simp only [write, hne, ↓reduceIte]
  refine loop_total (P := Partway out b data)
    (fun w => w.self.bufferPos + w.count) ?_ fuel ⟨b, 0, data.length⟩ ?_ hf
  · intro w hw
    by_cases hn : w.self.bufferPos + w.count ≤ w.self.bufferSize
    · obtain ⟨res, hrun, hres⟩ := keep_pass w hw hn
      exact Or.inr ⟨res, hrun, Or.inl hres⟩
    · rcases spill_pass ho w hw (by omega) with h | ⟨res, hrun, hres⟩
      · exact Or.inl h
      · exact Or.inr ⟨res, hrun, Or.inr hres⟩
  · exact ⟨hb, rfl, Nat.zero_add _, by omega, Or.inl rfl, hno, [], .none _, by simp,
      by simp [due], by simp⟩

/-- A write beyond the word range copies past the end of the buffer. -/
theorem write_outside (hb : Fits b) (hargs : data.length < word)
    (hno : word ≤ b.bufferPos + data.length) (fuel : Nat) :
    write out (fuel + 1) b data = .error .outOfBounds := by
  have hpos := hb.positive
  have hsmall := hb.small
  have hinside := hb.inside
  have hroom := hb.room
  have hne : ¬ b.bufferSize = 0 := by omega
  have hpass : writePass out data ⟨b, 0, data.length⟩ = .error .outOfBounds := by
    unfold writePass
    rw [if_neg (by dsimp only; rw [addWord_wrap (by omega) hargs hno]; omega)]
    simp only [load_all, ok_bind]
    rw [store_out (by omega)]
    rfl
  simp only [write, hne, ↓reduceIte]
  exact loop_fails hpass

/-- A write beyond the word range never returns a count. -/
theorem write_wraps (hb : Fits b) (hargs : data.length < word)
    (hno : word ≤ b.bufferPos + data.length) (fuel : Nat) (res : Int × BufferedOutStream τ) :
    write out fuel b data ≠ .ok res := by
  have hne : ¬ b.bufferSize = 0 := by have := hb.positive; omega
  cases fuel with
  | zero =>
    simp only [write, hne, ↓reduceIte]
    exact nofun
  | succ fuel =>
    rw [write_outside hb hargs hno]
    exact nofun

/-- A write that returned returns the same with more fuel. -/
theorem write_settles (hb : Fits b) (hargs : data.length < word) {fuel : Nat}
    {res : Int × BufferedOutStream τ} (h : write out fuel b data = .ok res)
    {P : Int × BufferedOutStream τ → Prop}
    (hreturns : b.bufferPos + data.length < word →
      ∃ res', write out (fuel + word) b data = .ok res' ∧ P res') :
    b.bufferPos + data.length < word ∧ P res := by
  by_cases hno : b.bufferPos + data.length < word
  · refine ⟨hno, ?_⟩
    have hne : ¬ b.bufferSize = 0 := by have := hb.positive; omega
    obtain ⟨res', hrun, hres⟩ := hreturns hno
    simp only [write, hne, ↓reduceIte] at h hrun
    rw [loop_mono h (by omega)] at hrun
    cases hrun
    exact hres
  · exact absurd h (write_wraps hb hargs (by omega) fuel res)

/-- What a returned write did, whatever the fuel. -/
theorem write_outcome (ho : AllOrNothing out received) (hb : Fits b)
    (hargs : data.length < word) {fuel : Nat} {res : Int × BufferedOutStream τ}
    (h : write out fuel b data = .ok res) :
    b.bufferPos + data.length < word ∧ (Wrote out b data res ∨ Refused out b data res) := by
  exact write_settles hb hargs h fun hno => write_returns ho hb hno (fuel + word) (by omega)

theorem Wrote.takes {res : Int × BufferedOutStream τ} (h : Wrote out b data res) :
    out.takes b.stream (due b data) :=
  OutStream.takes_iff.mpr ⟨_, h.took⟩

theorem Refused.not_takes {res : Int × BufferedOutStream τ} (h : Refused out b data res) :
    ¬ out.takes b.stream (due b data) := by
  obtain ⟨_, _, _, _, _, done, block, t, ⟨rest, hdue⟩, htook, hwrite, _⟩ := h.short
  rw [← hdue, List.append_assoc, htook.takes_append]
  rintro ⟨t', hw, _⟩
  rw [hwrite] at hw
  simp only [Except.ok.injEq, Prod.mk.injEq] at hw
  omega

/-- After an accepted write the sink and the buffer hold the new data too. -/
theorem Wrote.holds (ho : AllOrNothing out received) {res : Int × BufferedOutStream τ}
    (h : Wrote out b data res) :
    received res.2.stream ++ pending res.2 = received b.stream ++ pending b ++ data := by
  rw [h.kept, ho.took h.took, List.append_assoc, due, spills_kept, List.append_assoc]

/-- The blocks due for two portions of data are those of the first and those of
the second after the first was written. -/
theorem Wrote.due_append {res : Int × BufferedOutStream τ} (h : Wrote out b data res)
    (more : List Byte) : due b (data ++ more) = due b data ++ due res.2 more := by
  rw [due, due, due, h.size, h.kept, ← List.append_assoc, spills_append]

theorem due_left (b : BufferedOutStream τ) (data more : List Byte) :
    ∃ rest, due b (data ++ more) = due b data ++ rest := by
  rw [due, due, ← List.append_assoc, spills_append]
  exact ⟨_, rfl⟩

theorem due_nil (hb : Fits b) : due b [] = [] := by
  rw [due, List.append_nil]
  exact spills_short (by rw [hb.pending_length]; exact hb.inside)

/-- The bytes of `data` that a write reported as written. -/
def reported (res : Int) (data : List Byte) : List Byte :=
  if res = -1 then [] else data.take res.toNat

theorem partialCount_ne (pos : Nat) : partialCount pos ≠ -1 := by
  unfold partialCount
  split <;> omega

/-- A refused write never answers -1: it reports at least one byte that neither
the sink nor the buffer holds. -/
theorem Refused.loses (ho : AllOrNothing out received) {res : Int × BufferedOutStream τ}
    (hargs : data.length < word) (h : Refused out b data res) :
    res.1 ≠ -1 ∧ ∃ k, received res.2.stream ++ pending res.2 =
        received b.stream ++ pending b ++ data.take k ∧
      k < data.length ∧ k < (reported res.1 data).length := by
  obtain ⟨k, remain, hk, hret, hfresh, done, block, t, _, htook, hwrite, hflat⟩ := h.short
  refine ⟨hret ▸ partialCount_ne _, k, ?_, by omega, ?_⟩
  · have hrec : received res.2.stream = received t := by
      rcases ho t block with ⟨t', hw, hr⟩ | ⟨t', hw, _⟩
      · rw [hwrite] at hw
        cases hw
        exact hr
      · rw [hwrite] at hw
        simp only [Except.ok.injEq, Prod.mk.injEq] at hw
        omega
    rw [hrec, ho.took htook, List.append_assoc, hflat, List.append_assoc]
  · have hreported : reported res.1 data = data.take (partialCount (k + remain)).toNat := by
      rw [hret]
      exact if_neg (partialCount_ne _)
    rw [hreported, List.length_take]
    unfold partialCount
    split
    · have hmax : toWord (-1) = word - 1 := by decide
      rw [hmax, Int.toNat_natCast]
      omega
    · rw [Int.toNat_natCast]
      omega

end CkCore.Proofs.BufferedOut
