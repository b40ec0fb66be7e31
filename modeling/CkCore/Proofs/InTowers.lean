import CkCore.Proofs.Layers
import CkCore.Spec.Towers

namespace CkCore.Proofs.InTowers
open Lib Cursor Layers

variable {σ : Type} {src : InStream σ} {content : List Byte} {pos : σ → Nat} {most reach fuel : Nat}

/-- The stream in its present state stands at `c` of the content and simulates
the cursor from there on, for reads of up to `most` bytes and seeks to up to
`reach`. -/
def Stands (most reach : Nat) (content : List Byte) (src : InStream σ) (s : σ)
    (c : Fin (content.length + 1)) : Prop :=
  ∃ R, R c s ∧ InStream.Simulates most R (Cursor.inStream content reach) src

theorem init_bufferOf (s : σ) (n : Nat) :
    BufferedInStream.init s n = BufferedInStream.init s (bufferOf n) := by
  by_cases hn : n = 0
  · subst hn
    rfl
  · rw [bufferOf, if_neg hn]

theorem bufferOf_pos (n : Nat) : 0 < bufferOf n := by
  unfold bufferOf
  split <;> omega

/-- A buffered stream over one that stands at `c` stands at `c` too. -/
theorem Stands.buffered {s : σ} {c : Fin (content.length + 1)}
    (h : Stands most reach content src s c) (hf : content.length < fuel) {n : Nat}
    (hn : bufferOf n ≤ most) (hw : bufferOf n < word) (k reach' : Nat) :
    Stands k reach' content (BufferedInStream.inStream src fuel) (BufferedInStream.init s n) c := by
  obtain ⟨R, hr, hsim⟩ := h
  have hpos := bufferOf_pos n
  -- The cursor is simulated by a buffer over the cursor, and that by one over the stream.
  have hideal := serves_simulates (inStream_serves content reach) hf k reach'
  refine ⟨_, ⟨BufferedInStream.init c (bufferOf n), ?_, ?_⟩,
    hideal.trans (buffered_simulates hsim hpos hn fuel k)⟩
  · exact BufferedIn.init_holds rfl hpos hw
  · rw [init_bufferOf s n]
    exact init_over hr hpos

theorem Stands.tower {s : σ} {c : Fin (content.length + 1)}
    (h : Stands most reach content src s c) (hf : content.length < fuel) {sizes : List Nat}
    (hs : ∀ n ∈ sizes, bufferOf n ≤ most) (hw : ∀ n ∈ sizes, bufferOf n < word) :
    Stands most reach content (InTower.inStream src fuel sizes) (InTower.init s sizes) c := by
  induction sizes with
  | nil => exact h
  | cons n sizes ih =>
    have hbelow := ih (fun m hm => hs m (List.mem_cons_of_mem _ hm))
      (fun m hm => hw m (List.mem_cons_of_mem _ hm))
    exact hbelow.buffered hf (hs n List.mem_cons_self) (hw n List.mem_cons_self) most reach

/-- Over a source that may fragment its reads the lowest buffer is what makes
the tower a cursor. -/
theorem serves_stands (h : Serves src content pos) (hf : content.length < fuel)
    {sizes : List Nat} (hne : sizes ≠ []) (hw : ∀ n ∈ sizes, n < word) (s : σ)
    {c : Fin (content.length + 1)} (hc : pos s = c.val) :
    Stands word content.length content (InTower.inStream src fuel sizes)
      (InTower.init s sizes) c := by
  have hsmall : ∀ n ∈ sizes, bufferOf n < word := by
    intro n hn
    have := hw n hn
    have hdefault : 8192 < word := by decide
    unfold bufferOf
    split <;> omega
  clear hw
  induction sizes with
  | nil => exact absurd rfl hne
  | cons n sizes ih =>
    have hn := hsmall n List.mem_cons_self
    by_cases hrest : sizes = []
    · subst hrest
      refine ⟨_, ?_, serves_simulates h hf word _⟩
      have hholds : BufferedIn.Holds content pos (BufferedInStream.init s (bufferOf n)) c.val :=
        BufferedIn.init_holds hc (bufferOf_pos n) hn
      rw [← init_bufferOf] at hholds
      exact hholds
    · exact (ih hrest fun m hm => hsmall m (List.mem_cons_of_mem _ hm)).buffered hf
        (Nat.le_of_lt hn) hn word _

theorem Stands.calls {s : σ} {c : Fin (content.length + 1)}
    (h : Stands most content.length content src s c) {ops : List Call}
    (hops : Within content c.val ops)
    (hm : ∀ op ∈ ops, op.within most) : src.calls s ops = .ok (Cursor.calls content c.val ops) := by
  obtain ⟨R, hr, hsim⟩ := h
  exact hsim.calls hr hm (inStream_calls hops)

theorem within_word {ops : List Call} {c : Nat} (h : Within content c ops) :
    ∀ op ∈ ops, op.within word := by
  induction ops generalizing c with
  | nil => exact fun op hop => nomatch hop
  | cons op ops ih =>
    intro op' hop
    rcases List.mem_cons.mp hop with rfl | hop
    · have hop' := h.1
      cases op' with
      | read count => exact Nat.le_of_lt hop'
      | «end» => trivial
      | seek distance whence => exact hop'.1
    · exact ih h.2 op' hop

/-- However many buffered streams of whatever sizes are put on top of each
other, and however the source at the bottom fragments its reads, the client of
the outermost one sees a plain cursor over the content. -/
theorem tower_is_cursor (h : Serves src content pos) {sizes : List Nat} (hne : sizes ≠ [])
    (hw : ∀ n ∈ sizes, n < word) {s : σ} (h0 : pos s = 0) {ops : List Call}
    (hops : Within content 0 ops) (hf : content.length < fuel) :
    (InTower.inStream src fuel sizes).calls (InTower.init s sizes) ops =
      .ok (Cursor.calls content 0 ops) :=
  (serves_stands h hf hne hw s (c := 0) h0).calls hops (within_word hops)

/-- Buffers of one, three and two bytes over a source of two bytes at a time. -/
theorem tower_is_cursor_five :
    (InTower.inStream (pieces [1, 2, 3, 4, 5] 2) 9 [1, 3, 2]).calls
        (InTower.init (σ := Fin 6) 0 [1, 3, 2]) [.read 1, .seek 2 .current, .end, .read 9, .end] =
      .ok [.read ⟨1, [1]⟩, .flag true, .flag false, .read ⟨2, [4, 5]⟩, .flag true] :=
  tower_is_cursor (pieces_serves [1, 2, 3, 4, 5] 2 (by decide)) (by decide) (by decide)
    rfl (by simp [Within, Cursor.call, Cursor.target, Cursor.slice]; decide)
    (by decide)

end CkCore.Proofs.InTowers
