import CkCore.Proofs.Detection
import CkCore.Proofs.InTowers
import CkCore.Proofs.LineReader

namespace CkCore.Proofs.TowerLines
open Lib CkCore.LineReader

section
variable {T ρ σ : Type} {most : Nat} {R : ρ → σ → Prop} {first : InStream ρ}
  {second : InStream σ}

theorem check_refines (h : InStream.Simulates most R first second) (bom : Nat → Byte)
    (mark : List Byte) (encoding : Encoding) {skip : Nat} (hs : skip < word)
    {found : Encoding × ρ} {found' : Encoding × σ} (hf : Alike R found found') :
    Refines (Alike R) (check first bom mark encoding skip found)
      (check second bom mark encoding skip found') := by
  unfold check
  split
  · apply (h.seek hf.2 skip hs .current).bind
    rintro ⟨ok, i⟩ ⟨_, s⟩ ⟨_, hr⟩
    exact refines_ok ⟨rfl, hr⟩
  · exact refines_ok hf

/-- Detection on a stream finds what detection on the one it simulates finds. -/
theorem detect_refines (h : InStream.Simulates most R first second) (hm : 4 ≤ most)
    (stale : Nat → Byte) {i : ρ} {s : σ} (hr : R i s) :
    Refines (Alike R) (detect first stale i) (detect second stale s) := by
  unfold detect
  apply (h.read hr 4 hm).bind
  rintro ⟨r, i⟩ ⟨_, s⟩ ⟨rfl, hr⟩
  apply (h.seek hr 0 (by decide) .begin).bind
  rintro ⟨ok, i⟩ ⟨_, s⟩ ⟨_, hr⟩
  dsimp only
  split
  · exact refines_ok ⟨rfl, hr⟩
  · apply (check_refines h _ _ _ (by decide) ⟨rfl, hr⟩).bind
    intro f f' hf
    apply (check_refines h _ _ _ (by decide) hf).bind
    intro f f' hf
    split
    · exact refines_ok hf
    · apply (check_refines h _ _ _ (by decide) hf).bind
      intro f f' hf
      apply (check_refines h _ _ _ (by decide) hf).bind
      intro f f' hf
      apply (check_refines h _ _ _ (by decide) hf).bind
      intro f f' hf
      apply (check_refines h _ _ _ (by decide) hf).bind
      intro f f' hf
      split
      · exact refines_ok hf
      · apply (check_refines h _ _ _ (by decide) hf).bind
        intro f f' hf
        apply (check_refines h _ _ _ (by decide) hf).bind
        intro f f' hf
        apply (check_refines h _ _ _ (by decide) hf).bind
        intro f f' hf
        rw [hf.1]
        exact check_refines h _ _ _ (by decide) hf

/-- Two readers with the same text in hand over related streams. -/
inductive SameReader (R : ρ → σ → Prop) : LineReader T ρ → LineReader T σ → Prop where
  | same {i : ρ} {s : σ} (encoding : Encoding) (nextStr : List T) (related : R i s) :
      SameReader R ⟨encoding, nextStr, i⟩ ⟨encoding, nextStr, s⟩

theorem end_same (h : InStream.Simulates most R first second) {self : LineReader T ρ}
    {self' : LineReader T σ} (hs : SameReader R self self') :
    self'.end second = self.end first := by
  obtain ⟨encoding, nextStr, hr⟩ := hs
  simp only [LineReader.end, h.ended hr]

variable [DecidableEq T] {type : CharType T}

theorem linePass_refines (h : InStream.Simulates most R first second) (hm : type.size ≤ most)
    (p : List T × LineReader T ρ) (p' : List T × LineReader T σ) (hp : Alike (SameReader R) p p') :
    Refines (Goes (Alike (SameReader R)) (Alike (SameReader R))) (linePass type first p)
      (linePass type second p') := by
  obtain ⟨line, self⟩ := p
  obtain ⟨_, self'⟩ := p'
  obtain ⟨rfl, encoding, nextStr, hr⟩ := hp
  unfold linePass
  dsimp only
  rw [h.ended hr]
  split
  · exact refines_ok (.leave ⟨rfl, .same _ _ hr⟩)
  · apply (h.read hr type.size hm).bind
    rintro ⟨read, i⟩ ⟨_, s⟩ ⟨rfl, hr⟩
    dsimp only
    split
    · exact refines_ok (.leave ⟨rfl, .same _ _ hr⟩)
    · split
      · exact refines_ok (.leave ⟨rfl, .same _ _ hr⟩)
      · split
        · apply (h.read hr type.size hm).bind
          rintro ⟨read, i⟩ ⟨_, s⟩ ⟨rfl, hr⟩
          dsimp only
          split
          · exact refines_ok (.leave ⟨rfl, .same _ _ hr⟩)
          · exact refines_ok (.leave ⟨rfl, .same _ _ hr⟩)
        · exact refines_ok (.again ⟨rfl, .same _ _ hr⟩)

theorem readLine_refines (h : InStream.Simulates most R first second) (hm : type.size ≤ most)
    (fuel : Nat) {self : LineReader T ρ} {self' : LineReader T σ} (hs : SameReader R self self') :
    Refines (Alike (SameReader R)) (readLine type first fuel self)
      (readLine type second fuel self') := by
  obtain ⟨encoding, nextStr, hr⟩ := hs
  exact refines_loop (linePass_refines h hm) fuel ⟨rfl, .same encoding [] hr⟩

/-- A client that reads all lines gets the same ones from both readers. -/
theorem drain_refines (h : InStream.Simulates most R first second) (hm : type.size ≤ most)
    (h4 : 4 ≤ most) (stale : Nat → Byte) (fuel : Nat) {i : ρ} {s : σ} (hr : R i s) :
    Refines Eq (drain type first stale fuel i) (drain type second stale fuel s) := by
  unfold drain create
  refine Refines.bind (Q := SameReader R) ?_ ?_
  · apply (detect_refines h h4 stale hr).bind
    rintro ⟨encoding, i⟩ ⟨_, s⟩ ⟨rfl, hr⟩
    exact refines_ok (.same encoding [] hr)
  · intro self self' hs
    apply refines_loop (R := Alike (SameReader R)) _ fuel ⟨rfl, hs⟩
    rintro ⟨lines, self⟩ ⟨_, self'⟩ ⟨rfl, hs⟩
    unfold drainPass
    dsimp only
    rw [end_same h hs]
    split
    · exact refines_ok (.leave rfl)
    · apply (readLine_refines h hm fuel hs).bind
      rintro ⟨line, self⟩ ⟨_, self'⟩ ⟨rfl, hs⟩
      exact refines_ok (.again ⟨rfl, hs⟩)

end

section
variable {content : List Byte}

/-- The lines of the cursor, whatever the detection finds in its array before. -/
theorem cursor_lines (hb : unmarked content) :
    ∃ lines, LineReader.Reads CharType.char.cr CharType.char.lf [] content lines ∧
      ∀ stale fuel, content.length < fuel →
        drain .char (Cursor.inStream content content.length) stale fuel 0 = .ok lines := by
  have hx := Cursor.inStream_exact content
  obtain ⟨lines, hreads, hlen⟩ :=
    LineReader.Reads.exists CharType.char.cr CharType.char.lf [] content
  refine ⟨lines, hreads, ?_⟩
  intro stale fuel hf
  obtain ⟨s', hdetect, hpos⟩ := Detection.detect_ansi hx hb stale (s := 0) rfl
  have hu : LineReader.Units .char (content.drop s'.val) content [] := by
    rw [hpos]
    exact LineReader.char_units content
  rw [drain, create, hdetect]
  exact LineReader.drain_loop hx hreads rfl hu hf (by rw [List.length_nil] at hlen; omega) []

/-- A content has one list of lines that line readers on buffered streams return
for it, whatever the source below fragments its reads into. It is exactly the
lines of the content if and only if no two carriage returns follow each other. -/
theorem tower_lines_iff (hb : unmarked content) :
    ∃ lines, (LineReader.exactly 13 10 content lines ↔ ¬ [13, 13] <:+: content) ∧
      ∀ (σ : Type) (src : InStream σ) (pos : σ → Nat), Serves src content pos →
        ∀ sizes ≠ [], (∀ n ∈ sizes, n < word) → ∀ s, pos s = 0 →
          ∀ stale fuel, content.length < fuel →
            drain .char (InTower.inStream src fuel sizes) stale fuel (InTower.init s sizes) =
              .ok lines := by
  obtain ⟨lines, hreads, hdrain⟩ := cursor_lines hb
  refine ⟨lines, hreads.exactly_iff CharType.char.distinct, ?_⟩
  intro σ src pos h sizes hne hw s h0 stale fuel hf
  obtain ⟨R, hr, hsim⟩ := InTowers.serves_stands h hf hne hw s (c := 0) h0
  obtain ⟨lines', hlines, rfl⟩ :=
    drain_refines hsim (by decide) (by decide) stale fuel hr lines (hdrain stale fuel hf)
  exact hlines

/-- Three lines for the two of a text with two carriage returns: the same ones
when it comes one byte at a time through a buffer of three and when it comes at
once through buffers of two and five. -/
theorem tower_lines_two :
    ∃ lines, (LineReader.exactly 13 10 [97, 13, 13, 98] lines ↔
        ¬ [13, 13] <:+: ([97, 13, 13, 98] : List Byte)) ∧
      drain .char (InTower.inStream (pieces [97, 13, 13, 98] 1) 5 [3]) (fun _ => 0) 5
        (InTower.init (σ := Fin 5) 0 [3]) = .ok lines ∧
      drain .char (InTower.inStream (pieces [97, 13, 13, 98] 4) 5 [2, 5]) (fun _ => 0) 5
        (InTower.init (σ := Fin 5) 0 [2, 5]) = .ok lines := by
  obtain ⟨lines, hexactly, hdrain⟩ :=
    tower_lines_iff (show unmarked [97, 13, 13, 98] by decide)
  refine ⟨lines, hexactly, ?_, ?_⟩
  · exact hdrain _ _ _ (pieces_serves _ 1 (by decide)) _ (by decide) (by decide) 0 rfl _ 5
      (by decide)
  · exact hdrain _ _ _ (pieces_serves _ 4 (by decide)) _ (by decide) (by decide) 0 rfl _ 5
      (by decide)

end

end CkCore.Proofs.TowerLines
