import CkCore.Proofs.OutRuns
import CkCore.Proofs.InTowers

namespace CkCore.Proofs.OutTowers
open Lib BufferedOutStream BufferedOut

section
variable {τ : Type} {out : OutStream τ} {b : BufferedOutStream τ} {data : List Byte}
  {R : List Byte → τ → Prop} {most total n : Nat} {l : List Byte}

/-- A pass that does not fit hands on the next block that is due; when the block
is taken the loop goes on behind it. -/
theorem spill_taken {w : Writing τ} {done : List (List Byte)} (hw : Underway b data done w)
    (out : OutStream τ) (hn : w.self.bufferSize < w.self.bufferPos + w.count) :
    ∃ block rest, due b data = done ++ block :: rest ∧
      ∀ t', out.write w.self.stream block = .ok (block.length, t') →
        ∃ w', writePass out data w = .ok (.again w') ∧ w'.self.stream = t' ∧
          Underway b data (done ++ [block]) w' ∧
          w'.self.bufferPos + w'.count < w.self.bufferPos + w.count := by
  obtain ⟨remain, part, block, hfill⟩ := hw.filled hn
  have hargs := hw.args
  have htotal := hw.total
  have hpos := hw.fits.positive
  have hsmall := hw.fits.small
  have hinside := hw.fits.inside
  have hsize := hw.size
  have hfree := hfill.free
  have hblen := hfill.length
  have hdue := hw.due
  have hkept := hw.kept
  rw [hfill.rest, spills_block (by omega) hblen hfill.more] at hdue
  rw [hfill.rest, kept_block (by omega) hblen hfill.more] at hkept
  refine ⟨block, _, hdue, fun t' hwrite => ?_⟩
  have hsub : subWord w.self.bufferSize w.self.bufferPos = remain := by
    rw [subWord_eq hsmall hinside, ← hfree, Nat.add_sub_cancel_left]
  have hret : ¬ ((block.length : Nat) : Int) = -1 := by omega
  have hpass := writePass_spill (by rw [addWord_eq hw.noWrap]; exact hn)
    (by rw [hsub]; exact hfill.loaded) hfill.stored hfill.whole hwrite
  rw [if_neg hret, hsub, addWord_eq (show w.pos + remain < word by omega),
    subWord_eq (show w.count < word by omega) (show remain ≤ w.count by omega)] at hpass
  refine ⟨_, hpass, rfl, ⟨⟨by dsimp only; omega, hpos, hsmall, Nat.zero_le _⟩, hsize,
    by dsimp only; omega, hargs, Or.inr rfl, ?_, ?_, ?_, ?_⟩, ?_⟩
  · have hno := hw.noWrap
    dsimp only
    omega
  · rw [List.flatten_append, List.take_add, ← hfill.next, ← List.append_assoc, ← hw.flat,
      hfill.joined]
    simp [pending]
  · rw [hdue]
    simp [pending]
  · rw [hkept]
    simp [pending]
  · dsimp only
    omega

/-- A write whose blocks the sink takes returns with all of them handed on. -/
theorem write_takes (hb : Fits b) (hno : b.bufferPos + data.length < word)
    (ht : out.takes b.stream (due b data)) {fuel : Nat} (hf : b.bufferPos + data.length < fuel) :
    ∃ res, write out fuel b data = .ok res ∧ Wrote out b data res := by
  have hne : ¬ b.bufferSize = 0 := by have := hb.positive; omega
  simp only [write, hne, ↓reduceIte]
  refine loop_total (P := fun w => ∃ done, Underway b data done w ∧
      out.Took b.stream done w.self.stream)
    (fun w => w.self.bufferPos + w.count) ?_ fuel ⟨b, 0, data.length⟩
    ⟨[], underway_first hb hno, .none _⟩ hf
  rintro w ⟨done, hunder, htook⟩
  by_cases hn : w.self.bufferPos + w.count ≤ w.self.bufferSize
  · obtain ⟨self, hpass, hfits, hsize, hstream, hdue, hkept⟩ := hunder.keep out hn
    refine Or.inr ⟨_, hpass, rfl, hfits, hsize, ?_, hkept⟩
    rw [hdue, hstream]
    exact htook
  · obtain ⟨block, rest, hdue, hspill⟩ := spill_taken hunder out (by omega)
    rw [hdue, htook.takes_append] at ht
    obtain ⟨t', hwrite, _⟩ := ht
    obtain ⟨w', hpass, hstream, hnext, hless⟩ := hspill t' hwrite
    refine Or.inl ⟨w', hpass, ⟨_, hnext, ?_⟩, hless⟩
    rw [hstream]
    exact htook.snoc hwrite

/-- A sink that simulates a gatherer takes blocks there is room for. -/
theorem simulates_took (h : OutStream.Simulates most R (gatherer total) out) {t : τ}
    (hr : R l t) {blocks : List (List Byte)} (hb : ∀ block ∈ blocks, block.length ≤ most)
    (ht : l.length + blocks.flatten.length ≤ total) :
    ∃ t', out.Took t blocks t' ∧ R (l ++ blocks.flatten) t' := by
  induction blocks generalizing l t with
  | nil => exact ⟨t, .none t, by simpa using hr⟩
  | cons block blocks ih =>
    simp only [List.flatten_cons, List.length_append] at ht
    obtain ⟨t', hw, hr'⟩ := h.takes hr (hb block List.mem_cons_self) (by omega)
    obtain ⟨t'', htook, hr''⟩ := ih hr' (fun x hx => hb x (List.mem_cons_of_mem _ hx))
      (by rw [List.length_append]; omega)
    refine ⟨t'', .piece hw htook, ?_⟩
    rw [List.flatten_cons, ← List.append_assoc]
    exact hr''

theorem took_unique {t t' t'' : τ} {pieces : List (List Byte)} (h : out.Took t pieces t')
    (h' : out.Took t pieces t'') : t' = t'' := by
  induction h with
  | none t =>
    cases h'
    rfl
  | piece head tail ih =>
    cases h' with
    | piece head' tail' =>
      rw [head] at head'
      cases head'
      exact ih tail'

/-- The stream below and the buffer hold `l` together. -/
structure Layer (R : List Byte → τ → Prop) (n : Nat) (l : List Byte)
    (b : BufferedOutStream τ) : Prop where
  fits : Fits b
  size : b.bufferSize = n
  below : ∃ front, R front b.stream ∧ front ++ pending b = l

theorem init_layer {t : τ} (hr : R l t) (hn : bufferOf n < word) :
    Layer R (bufferOf n) l (init t n) := by
  have hinit : init t n = init t (bufferOf n) := by
    by_cases h0 : n = 0
    · subst h0
      rfl
    · rw [bufferOf, if_neg h0]
  have hpos := InTowers.bufferOf_pos n
  have hne : ¬ bufferOf n = 0 := by omega
  rw [hinit]
  refine ⟨init_fits hpos hn, by simp [init, hne], l, hr, ?_⟩
  simp [init, pending]

/-- A buffered stream over a sink that simulates a gatherer simulates it too. -/
theorem layer_simulates (h : OutStream.Simulates most R (gatherer total) out) (hn : n ≤ most)
    {k : Nat} (hk : n + k < word) {fuel : Nat} (hf : word ≤ fuel) :
    OutStream.Simulates k (Layer R n) (gatherer total) (outStream out fuel) := by
  refine gatherer_simulated ?_
  rintro l b ⟨hfits, hsize, front, hr, rfl⟩ data hdata hroom
  have hinside := hfits.inside
  have hflat := congrArg List.length (spills_kept b.bufferSize (pending b ++ data))
  simp only [List.length_append] at hflat hroom
  have hblocks : ∀ block ∈ due b data, block.length ≤ most := by
    intro block hm
    have := spills_length b.bufferSize _ block hm
    omega
  obtain ⟨t', htook, hr'⟩ := simulates_took h hr hblocks (by rw [due]; omega)
  have hshort : b.bufferPos + data.length < word := by omega
  obtain ⟨⟨r, b'⟩, hrun, hwrote⟩ := write_takes hfits hshort
    (OutStream.takes_iff.mpr ⟨t', htook⟩) (Nat.lt_of_lt_of_le hshort hf)
  have hcount := hwrote.count
  dsimp only at hcount
  subst hcount
  have hstream := took_unique htook hwrote.took
  dsimp only at hstream
  subst hstream
  refine ⟨b', hrun, hwrote.fits, hwrote.size.trans hsize, _, hr', ?_⟩
  rw [hwrote.kept, List.append_assoc, due, spills_kept, List.append_assoc]

/-- A flush leaves all of it in the stream below. -/
theorem layer_flushes (h : OutStream.Simulates most R (gatherer total) out) (hn : n ≤ most)
    (hb : Layer R n l b) (hl : l.length ≤ total) :
    ∃ b', flush out b = .ok (b.bufferPos, b') ∧ Layer R n l b' ∧ pending b' = [] ∧
      R l b'.stream := by
  obtain ⟨hfits, hsize, front, hr, rfl⟩ := hb
  have hinside := hfits.inside
  have hlength := hfits.pending_length
  rw [List.length_append] at hl
  have hmost : (pending b).length ≤ most := by omega
  obtain ⟨t', hwrite, hr'⟩ := h.takes hr hmost hl
  have hempty : pending { b with stream := t', bufferPos := 0 } = [] := by simp [pending]
  refine ⟨_, OutRuns.flush_accepted hfits hwrite, ⟨⟨hfits.room, hfits.positive, hfits.small,
    Nat.zero_le _⟩, hsize, _, hr', ?_⟩, hempty, hr'⟩
  rw [hempty, List.append_nil]

end

section
open OutTower
variable {τ : Type} {out : OutStream τ} {R : List Byte → τ → Prop} {most total fuel : Nat}
  {l : List Byte} {t : τ}

/-- The tower holds `l`: its base some front of it, each buffer a part. -/
def Holds (R : List Byte → τ → Prop) : (sizes : List Nat) → List Byte → OutTower τ sizes → Prop
  | [] => R
  | n :: sizes => Layer (Holds R sizes) (bufferOf n)

theorem fitting_word {sizes : List Nat} (h : fitting most sizes) :
    ∀ n ∈ sizes, bufferOf n < word := by
  induction sizes generalizing most with
  | nil => exact fun n hn => nomatch hn
  | cons m sizes ih =>
    intro n hn
    rcases List.mem_cons.mp hn with rfl | hn
    · have := h.1
      omega
    · exact ih h.2 n hn

theorem init_holds (hr : R l t) {sizes : List Nat} (h : ∀ n ∈ sizes, bufferOf n < word) :
    Holds R sizes l (init t sizes) := by
  induction sizes with
  | nil => exact hr
  | cons n sizes ih =>
    exact init_layer (ih fun m hm => h m (List.mem_cons_of_mem _ hm)) (h n List.mem_cons_self)

/-- What the base holds and what is pending above it is all of it. -/
theorem Holds.parts {sizes : List Nat} {T : OutTower τ sizes} (h : Holds R sizes l T) :
    ∃ front, R front (base sizes T) ∧ front ++ pending sizes T = l := by
  induction sizes generalizing l with
  | nil => exact ⟨l, h, List.append_nil l⟩
  | cons n sizes ih =>
    obtain ⟨_, _, front, hbelow, rfl⟩ := h
    obtain ⟨deep, hr, rfl⟩ := ih hbelow
    exact ⟨deep, hr, (List.append_assoc _ _ _).symm⟩

variable (h : OutStream.Simulates word R (gatherer total) out) (hf : word ≤ fuel)
include h

include hf in
theorem tower_simulates {sizes : List Nat} (hm : most ≤ word) (hfit : fitting most sizes) :
    OutStream.Simulates most (Holds R sizes) (gatherer total) (outStream out fuel sizes) := by
  induction sizes generalizing most with
  | nil => exact fun l t hr data hd => h l t hr data (Nat.le_trans hd hm)
  | cons n sizes ih =>
    have hn := hfit.1
    exact layer_simulates (ih (by omega) hfit.2) (Nat.le_refl _) hn hf

include hf in
/-- A flush at any height moves bytes down and loses none. -/
theorem flushAt_holds {sizes : List Nat} (hfit : fitting most sizes) (height : Nat)
    {T : OutTower τ sizes} (hT : Holds R sizes l T) (hl : l.length ≤ total) :
    ∃ T', flushAt out fuel sizes height T = .ok T' ∧ Holds R sizes l T' := by
  induction sizes generalizing most height l with
  | nil => exact ⟨T, rfl, hT⟩
  | cons n sizes ih =>
    cases height with
    | zero =>
      have hn := hfit.1
      obtain ⟨b', hflush, hb', _⟩ :=
        layer_flushes (tower_simulates h hf (by omega) hfit.2) (Nat.le_refl _) hT hl
      refine ⟨b', ?_, hb'⟩
      rw [flushAt, hflush]
      rfl
    | succ height =>
      obtain ⟨hfits, hsize, front, hbelow, rfl⟩ := hT
      rw [List.length_append] at hl
      obtain ⟨T', hflush, hT'⟩ := ih hfit.2 height hbelow (by omega)
      refine ⟨{ T with stream := T' }, ?_, ⟨hfits.room, hfits.positive, hfits.small,
        hfits.inside⟩, hsize, front, hT', rfl⟩
      rw [flushAt, hflush]
      rfl

include hf in
/-- Flushing from the top down leaves everything in the base. -/
theorem flushAll_empties {sizes : List Nat} (hfit : fitting most sizes)
    {T : OutTower τ sizes} (hT : Holds R sizes l T) (hl : l.length ≤ total) :
    ∃ T', flushAll out fuel sizes T = .ok T' ∧ R l (base sizes T') ∧ pending sizes T' = [] := by
  induction sizes generalizing most with
  | nil => exact ⟨T, rfl, hT, rfl⟩
  | cons n sizes ih =>
    have hn := hfit.1
    obtain ⟨b', hflush, _, hempty, hbelow⟩ :=
      layer_flushes (tower_simulates h hf (by omega) hfit.2) (Nat.le_refl _) hT hl
    obtain ⟨T', hrest, hr, hnone⟩ := ih hfit.2 hbelow
    refine ⟨{ b' with stream := T' }, ?_, hr, ?_⟩
    · rw [flushAll, hflush]
      change (flushAll out fuel sizes b'.stream >>= fun stream =>
        pure ({ b' with stream := stream } : BufferedOutStream (OutTower τ sizes))) = _
      rw [hrest]
      rfl
    · exact List.append_eq_nil_iff.mpr ⟨hnone, hempty⟩

include hf in
theorem performs_holds {sizes : List Nat} (hm : most ≤ word) (hfit : fitting most sizes)
    {cs : List TowerCall} (hcs : ∀ data ∈ writes cs, data.length ≤ most) {T : OutTower τ sizes}
    (hT : Holds R sizes l T) (hl : l.length + (writes cs).flatten.length ≤ total) :
    ∃ T', performs out fuel sizes T cs =
        .ok ((writes cs).map fun data => (data.length : Int), T') ∧
      Holds R sizes (l ++ (writes cs).flatten) T' := by
  induction cs generalizing l T with
  | nil => exact ⟨T, rfl, by simpa [writes] using hT⟩
  | cons c cs ih =>
    cases c with
    | write data =>
      simp only [writes, List.flatten_cons, List.length_append] at hl hcs
      obtain ⟨T₁, hwrite, hT₁⟩ := (tower_simulates h hf hm hfit).takes hT
        (hcs data List.mem_cons_self) (by omega)
      obtain ⟨T', hrest, hT'⟩ := ih (fun x hx => hcs x (List.mem_cons_of_mem _ hx)) hT₁
        (by rw [List.length_append]; omega)
      refine ⟨T', ?_, ?_⟩
      · simp [performs, perform, hwrite, hrest, writes]
      · rw [writes, List.flatten_cons, ← List.append_assoc]
        exact hT'
    | flush height =>
      obtain ⟨T₁, hflush, hT₁⟩ := flushAt_holds h hf hfit height hT (by omega)
      obtain ⟨T', hrest, hT'⟩ := ih hcs hT₁ hl
      refine ⟨T', ?_, hT'⟩
      simp [performs, perform, hflush, hrest, writes]

end

section
open OutTower
variable {τ : Type} {out : OutStream τ} {received : τ → List Byte}

/-- A client may write to a tower of any number of buffered streams and flush
any of them in any order: every write is reported in full, what the sink has and
what the buffers hold from the lowest one up is what was written, and flushing
from the top down leaves all of it in the sink. -/
theorem tower_delivers (h : AcceptsAll out received) {sizes : List Nat} {most : Nat}
    (hm : most ≤ word) (hfit : fitting most sizes) (t : τ) {cs : List TowerCall}
    (hcs : ∀ data ∈ writes cs, data.length ≤ most) {fuel : Nat} (hf : word ≤ fuel) :
    ∃ T, performs out fuel sizes (init t sizes) cs =
        .ok ((writes cs).map fun data => (data.length : Int), T) ∧
      received (base sizes T) ++ pending sizes T = received t ++ (writes cs).flatten ∧
      ∃ T', flushAll out fuel sizes T = .ok T' ∧ pending sizes T' = [] ∧
        received (base sizes T') = received t ++ (writes cs).flatten := by
  have hsim := h.simulates word (received t ++ (writes cs).flatten).length
  have hroom : (received t).length + (writes cs).flatten.length ≤
      (received t ++ (writes cs).flatten).length := Nat.le_of_eq List.length_append.symm
  have hinit : Holds (fun l t => received t = l) sizes (received t) (init t sizes) :=
    init_holds (R := fun l t => received t = l) rfl (fitting_word hfit)
  obtain ⟨T, hrun, hT⟩ := performs_holds hsim hf hm hfit hcs hinit hroom
  obtain ⟨_, rfl, hparts⟩ := hT.parts
  obtain ⟨T', hflush, hbase, hnone⟩ := flushAll_empties hsim hf hfit hT (Nat.le_refl _)
  exact ⟨T, hrun, hparts, T', hflush, hnone, hbase⟩

/-- Seven bytes through buffers of two and three, the lower one flushed between
the writes. -/
theorem tower_delivers_seven :
    ∃ T, performs collector word [2, 3] (init (τ := List Byte) [] [2, 3])
        [.write [1, 2, 3, 4, 5], .flush 1, .write [6, 7]] = .ok ([5, 2], T) ∧
      id (base [2, 3] T) ++ pending [2, 3] T = id [] ++ [1, 2, 3, 4, 5, 6, 7] ∧
      ∃ T', flushAll collector word [2, 3] T = .ok T' ∧ pending [2, 3] T' = [] ∧
        id (base [2, 3] T') = id [] ++ [1, 2, 3, 4, 5, 6, 7] :=
  @tower_delivers _ collector id collector_accepts [2, 3] 5 (by decide)
    (by simp [fitting, bufferOf]; decide) [] [.write [1, 2, 3, 4, 5], .flush 1, .write [6, 7]]
    (by decide) word (Nat.le_refl _)

end

end CkCore.Proofs.OutTowers
