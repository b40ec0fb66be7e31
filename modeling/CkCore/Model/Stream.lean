import CkCore.Lib.Memory

namespace CkCore
open Lib

abbrev Byte := UInt8

/-- What a read leaves behind: the returned tint64 and the bytes stored at the
front of the caller's buffer. -/
structure ReadResult where
  ret : Int
  data : List Byte
deriving DecidableEq, Repr

inductive StreamWhence where
  | current
  | begin
deriving DecidableEq, Repr

/-- The virtual functions of an input stream over its own state. -/
structure InStream (σ : Type) where
  read : σ → Nat → Except Fault (ReadResult × σ)
  size : σ → Int
  «end» : σ → Bool
  seek : σ → Nat → StreamWhence → Except Fault (Bool × σ)

/-- The one virtual function of an output stream. The list is the caller's
buffer cut to the requested count. -/
structure OutStream (τ : Type) where
  write : τ → List Byte → Except Fault (Int × τ)

section
variable {σ τ : Type}

/-- A source of some content that may fail at any read and may deliver any
part of what is asked for. `pos` counts the bytes delivered so far. -/
structure Provides (src : InStream σ) (content : List Byte) (pos : σ → Nat) : Prop where
  bounded : ∀ s, pos s ≤ content.length
  ended : ∀ s, src.end s = true ↔ pos s = content.length
  read : ∀ s n, pos s < content.length → 0 < n →
    (∃ data s', src.read s n = .ok (⟨-1, data⟩, s') ∧ data.length ≤ n) ∨
    ∃ data s', src.read s n = .ok (⟨data.length, data⟩, s') ∧ data.length ≤ n ∧
      data <+: content.drop (pos s) ∧ pos s' = pos s + data.length

/-- A source that may fail at any read, and whose other reads away from the end
deliver at least one byte. -/
structure Delivers (src : InStream σ) (content : List Byte) (pos : σ → Nat) : Prop
    extends Provides src content pos where
  some : ∀ s n data s', pos s < content.length → 0 < n →
    src.read s n = .ok (⟨data.length, data⟩, s') → 0 < data.length

/-- A source that serves all of its content: a read away from the end delivers
at least one byte, and seeking to the beginning rewinds. -/
structure Serves (src : InStream σ) (content : List Byte) (pos : σ → Nat) : Prop where
  bounded : ∀ s, pos s ≤ content.length
  ended : ∀ s, src.end s = true ↔ pos s = content.length
  read : ∀ s n, pos s < content.length → 0 < n →
    ∃ data s', src.read s n = .ok (⟨data.length, data⟩, s') ∧ 0 < data.length ∧
      data.length ≤ n ∧ data <+: content.drop (pos s) ∧ pos s' = pos s + data.length
  rewind : ∀ s, ∃ s', src.seek s 0 .begin = .ok (true, s') ∧ pos s' = 0

/-- A source that delivers all that is asked for as far as the content goes,
and whose seeks inside the content are exact. -/
structure Exact (src : InStream σ) (content : List Byte) (pos : σ → Nat) : Prop where
  bounded : ∀ s, pos s ≤ content.length
  ended : ∀ s, src.end s = true ↔ pos s = content.length
  read : ∀ s n, ∃ s', src.read s n =
      .ok (⟨((content.drop (pos s)).take n).length, (content.drop (pos s)).take n⟩, s') ∧
    content.drop (pos s') = (content.drop (pos s)).drop n
  begin : ∀ s n, n ≤ content.length → ∃ s', src.seek s n .begin = .ok (true, s') ∧ pos s' = n
  current : ∀ s n, pos s + n ≤ content.length →
    ∃ s', src.seek s n .current = .ok (true, s') ∧ pos s' = pos s + n

theorem Serves.provides {src : InStream σ} {content : List Byte} {pos : σ → Nat}
    (h : Serves src content pos) : Provides src content pos := by
  refine ⟨h.bounded, h.ended, ?_⟩
  intro s n hs hn
  obtain ⟨data, s', hr, _, hrest⟩ := h.read s n hs hn
  exact Or.inr ⟨data, s', hr, hrest⟩

/-- A sink whose writes either accept every byte or fail and consume nothing. -/
def AllOrNothing (out : OutStream τ) (received : τ → List Byte) : Prop :=
  ∀ t data,
    (∃ t', out.write t data = .ok (-1, t') ∧ received t' = received t) ∨
    ∃ t', out.write t data = .ok (data.length, t') ∧ received t' = received t ++ data

/-- A sink whose writes either accept every byte or fail. -/
def AllOrFails (out : OutStream τ) (received : τ → List Byte) : Prop :=
  ∀ t data,
    (∃ t', out.write t data = .ok (-1, t')) ∨
    ∃ t', out.write t data = .ok (data.length, t') ∧ received t' = received t ++ data

/-- A sink that accepts every byte of every write. -/
def AcceptsAll (out : OutStream τ) (received : τ → List Byte) : Prop :=
  ∀ t data, ∃ t', out.write t data = .ok (data.length, t') ∧
    received t' = received t ++ data

/-- The contract of OutStream::write: a write fails or consumes some prefix of
the data, and reports how long that prefix was. -/
def Consumes (out : OutStream τ) (consumed : τ → List Byte) : Prop :=
  ∀ t data,
    (∃ t', out.write t data = .ok (-1, t')) ∨
    ∃ k t', k ≤ data.length ∧ out.write t data = .ok ((k : Int), t') ∧
      consumed t' = consumed t ++ data.take k

/-- A sink that never fails, but may accept only the front of what it is given. -/
def AcceptsFront (out : OutStream τ) (consumed : τ → List Byte) : Prop :=
  ∀ t data, ∃ (k : Nat) (t' : τ), k ≤ data.length ∧ out.write t data = .ok ((k : Int), t') ∧
    consumed t' = consumed t ++ data.take k

/-- A sink together with the list of the writes issued to it. -/
def OutStream.recorded (out : OutStream τ) : OutStream (τ × List (List Byte)) where
  write p data := do
    let (r, t) ← out.write p.1 data
    return (r, (t, p.2 ++ [data]))

/-- The sink after writes of the pieces none of which failed, however much of
each piece was consumed. -/
inductive OutStream.Sent (out : OutStream τ) : τ → List (List Byte) → τ → Prop where
  | none (t : τ) : Sent out t [] t
  | piece {t t' t'' : τ} {r : Int} {piece : List Byte} {pieces : List (List Byte)}
      (head : out.write t piece = .ok (r, t')) (ok : r ≠ -1)
      (tail : Sent out t' pieces t'') : Sent out t (piece :: pieces) t''

/-- The chunks a source delivers when it is read `n` bytes at a time to its end. -/
inductive InStream.Chunks (src : InStream σ) (n : Nat) : σ → List (List Byte) → Prop where
  | done {s : σ} (last : src.end s = true) : Chunks src n s []
  | chunk {s s' : σ} {data : List Byte} {chunks : List (List Byte)}
      (more : src.end s = false) (read : src.read s n = .ok (⟨data.length, data⟩, s'))
      (rest : Chunks src n s' chunks) : Chunks src n s (data :: chunks)

/-- The source after the parts that reading it for `size` bytes, at most `most`
at a time, has delivered so far. -/
inductive InStream.Reads (src : InStream σ) (most size : Nat) (s : σ) :
    List (List Byte) → σ → Prop where
  | none : Reads src most size s [] s
  | part {s' s'' : σ} {parts : List (List Byte)} {data : List Byte}
      (before : Reads src most size s parts s') (more : src.end s' = false)
      (left : parts.flatten.length < size)
      (read : src.read s' (min (size - parts.flatten.length) most) =
        .ok (⟨data.length, data⟩, s'')) : Reads src most size s (parts ++ [data]) s''

/-- The sink takes each of the pieces in full, written one after the other. -/
def OutStream.takes (out : OutStream τ) : τ → List (List Byte) → Prop
  | _, [] => True
  | t, piece :: pieces =>
    ∃ t', out.write t piece = .ok (piece.length, t') ∧ out.takes t' pieces

/-- The sink after each of the pieces has been written in full. -/
inductive OutStream.Took (out : OutStream τ) : τ → List (List Byte) → τ → Prop where
  | none (t : τ) : Took out t [] t
  | piece {t t' t'' : τ} {piece : List Byte} {pieces : List (List Byte)}
      (head : out.write t piece = .ok (piece.length, t'))
      (tail : Took out t' pieces t'') : Took out t (piece :: pieces) t''

theorem OutStream.takes_iff {out : OutStream τ} {t : τ} {pieces : List (List Byte)} :
    out.takes t pieces ↔ ∃ t', out.Took t pieces t' := by
  induction pieces generalizing t with
  | nil => exact ⟨fun _ => ⟨t, .none t⟩, fun _ => trivial⟩
  | cons piece pieces ih =>
    constructor
    · rintro ⟨t', hw, ht⟩
      obtain ⟨t'', ht⟩ := ih.mp ht
      exact ⟨t'', .piece hw ht⟩
    · rintro ⟨t'', ht⟩
      cases ht with
      | piece hw ht => exact ⟨_, hw, ih.mpr ⟨t'', ht⟩⟩

theorem InStream.Chunks.unique {src : InStream σ} {n : Nat} {s : σ} {xs ys : List (List Byte)}
    (hx : src.Chunks n s xs) (hy : src.Chunks n s ys) : xs = ys := by
  induction hx generalizing ys with
  | done last =>
    cases hy with
    | done _ => rfl
    | chunk more _ _ => rw [last] at more; cases more
  | chunk more read rest ih =>
    cases hy with
    | done last => rw [last] at more; cases more
    | chunk more' read' rest' =>
      rw [read] at read'
      simp only [Except.ok.injEq, Prod.mk.injEq, ReadResult.mk.injEq] at read'
      obtain ⟨⟨_, rfl⟩, rfl⟩ := read'
      rw [ih rest']

theorem OutStream.Took.snoc {out : OutStream τ} {t t' t'' : τ} {pieces : List (List Byte)}
    {piece : List Byte} (h : out.Took t pieces t')
    (hw : out.write t' piece = .ok (piece.length, t'')) : out.Took t (pieces ++ [piece]) t'' := by
  induction h with
  | none t => exact .piece hw (.none t'')
  | piece head tail ih => exact .piece head (ih hw)

theorem OutStream.Sent.snoc {out : OutStream τ} {t t' t'' : τ} {pieces : List (List Byte)}
    {piece : List Byte} {r : Int} (h : out.Sent t pieces t')
    (hw : out.write t' piece = .ok (r, t'')) (hr : r ≠ -1) :
    out.Sent t (pieces ++ [piece]) t'' := by
  induction h with
  | none t => exact .piece hw hr (.none t'')
  | piece head ok tail ih => exact .piece head ok (ih hw)

/-- Where the sink stands after some pieces decides whether it takes more. -/
theorem OutStream.Took.takes_append {out : OutStream τ} {t t' : τ} {xs ys : List (List Byte)}
    (hx : out.Took t xs t') : out.takes t (xs ++ ys) ↔ out.takes t' ys := by
  induction hx with
  | none t => rfl
  | @piece t u t' piece pieces head tail ih =>
    rw [← ih]
    constructor
    · rintro ⟨v, hv, ht⟩
      rw [head] at hv
      cases hv
      exact ht
    · intro ht
      exact ⟨u, head, ht⟩

theorem OutStream.takes_left {out : OutStream τ} {t : τ} {xs ys : List (List Byte)}
    (h : out.takes t (xs ++ ys)) : out.takes t xs := by
  induction xs generalizing t with
  | nil => trivial
  | cons x xs ih =>
    obtain ⟨t', hw, ht⟩ := h
    exact ⟨t', hw, ih ht⟩

theorem AllOrNothing.all_or_fails {out : OutStream τ} {received : τ → List Byte}
    (h : AllOrNothing out received) : AllOrFails out received := by
  intro t data
  rcases h t data with ⟨t', hw, _⟩ | hw
  · exact Or.inl ⟨t', hw⟩
  · exact Or.inr hw

theorem Serves.delivers {src : InStream σ} {content : List Byte} {pos : σ → Nat}
    (h : Serves src content pos) : Delivers src content pos := by
  refine ⟨h.provides, ?_⟩
  intro s n data s' hs hn hr
  obtain ⟨data', s'', hr', hpos, _⟩ := h.read s n hs hn
  rw [hr] at hr'
  simp only [Except.ok.injEq, Prod.mk.injEq, ReadResult.mk.injEq] at hr'
  obtain ⟨⟨_, rfl⟩, rfl⟩ := hr'
  exact hpos

/-- What a source still has in front of its end is read, or the read fails. -/
theorem Delivers.next {src : InStream σ} {content : List Byte} {pos : σ → Nat}
    (h : Delivers src content pos) {s : σ} (hs : src.end s = false) {n : Nat} (hn : 0 < n) :
    (∃ data s', src.read s n = .ok (⟨-1, data⟩, s') ∧ data.length ≤ n) ∨
    ∃ data s', src.read s n = .ok (⟨data.length, data⟩, s') ∧ 0 < data.length ∧
      data.length ≤ n ∧ data <+: content.drop (pos s) ∧ pos s' = pos s + data.length := by
  have hlt : pos s < content.length := by
    have hle := h.bounded s
    have hne : ¬ pos s = content.length := by
      rw [← h.ended s, hs]
      exact Bool.false_ne_true
    omega
  rcases h.read s n hlt hn with hfail | ⟨data, s', hread, hlen, hrest⟩
  · exact Or.inl hfail
  · exact Or.inr ⟨data, s', hread, h.some s n data s' hlt hn hread, hlen, hrest⟩

/-- The parts read are the first bytes of what the source held. -/
theorem InStream.Reads.taken {src : InStream σ} {content : List Byte} {pos : σ → Nat}
    (hsrc : Delivers src content pos) {most size : Nat} (hm : 0 < most) {s s' : σ}
    {parts : List (List Byte)} (h : src.Reads most size s parts s') :
    pos s' = pos s + parts.flatten.length ∧
      parts.flatten = (content.drop (pos s)).take parts.flatten.length ∧
      parts.flatten.length ≤ size := by
  induction h with
  | none => simp
  | @part s' s'' parts data before more left read ih =>
    obtain ⟨hpos, htake, hsize⟩ := ih
    rcases hsrc.next more (n := min (size - parts.flatten.length) most) (by omega) with
      ⟨bytes, s₁, hfail, _⟩ | ⟨bytes, s₁, hread, _, hlen, hnext, hpos'⟩
    · rw [read] at hfail
      simp only [Except.ok.injEq, Prod.mk.injEq, ReadResult.mk.injEq] at hfail
      omega
    · rw [read] at hread
      simp only [Except.ok.injEq, Prod.mk.injEq, ReadResult.mk.injEq] at hread
      obtain ⟨⟨_, rfl⟩, rfl⟩ := hread
      have hflat : (parts ++ [data]).flatten = parts.flatten ++ data := by simp
      rw [hflat, List.length_append]
      refine ⟨by omega, ?_, by omega⟩
      rw [List.take_add, ← htake, List.drop_drop, ← hpos]
      exact congrArg _ (List.prefix_iff_eq_take.mp hnext)

theorem AcceptsAll.all_or_nothing {out : OutStream τ} {received : τ → List Byte}
    (h : AcceptsAll out received) : AllOrNothing out received :=
  fun t data => Or.inr (h t data)

theorem AcceptsFront.consumes {out : OutStream τ} {consumed : τ → List Byte}
    (h : AcceptsFront out consumed) : Consumes out consumed :=
  fun t data => Or.inr (h t data)

/-- Writes that may stop short consume everything when each of them takes its
piece in full, and less otherwise. -/
theorem OutStream.Sent.consumed {out : OutStream τ} {consumed : τ → List Byte}
    (ho : Consumes out consumed) {t t' : τ} {pieces : List (List Byte)}
    (h : out.Sent t pieces t') :
    ∃ taken, consumed t' = consumed t ++ taken ∧
      (out.takes t pieces → taken = pieces.flatten) ∧
      (¬ out.takes t pieces → taken.length < pieces.flatten.length) := by
  induction h with
  | none t => exact ⟨[], by simp, by simp, fun hn => absurd trivial hn⟩
  | @piece t u t' r piece pieces head ok tail ih =>
    obtain ⟨taken, hconsumed, hall, hshort⟩ := ih
    have hle : taken.length ≤ pieces.flatten.length := by
      by_cases htakes : out.takes u pieces
      · exact Nat.le_of_eq (congrArg List.length (hall htakes))
      · exact Nat.le_of_lt (hshort htakes)
    rcases ho t piece with ⟨v, hw⟩ | ⟨k, v, hk, hw, hc⟩
    · rw [head] at hw
      cases hw
      exact absurd rfl ok
    · rw [head] at hw
      cases hw
      have htakes : out.takes t (piece :: pieces) ↔ k = piece.length ∧ out.takes u pieces := by
        constructor
        · rintro ⟨v, hw, htakes⟩
          rw [head] at hw
          simp only [Except.ok.injEq, Prod.mk.injEq, Int.natCast_inj] at hw
          obtain ⟨rfl, rfl⟩ := hw
          exact ⟨rfl, htakes⟩
        · rintro ⟨rfl, htakes⟩
          exact ⟨u, head, htakes⟩
      refine ⟨piece.take k ++ taken, ?_, ?_, ?_⟩
      · rw [hconsumed, hc, List.append_assoc]
      · intro h
        obtain ⟨rfl, hrest⟩ := htakes.mp h
        rw [List.take_length, List.flatten_cons, hall hrest]
      · intro hn
        rw [htakes, Classical.not_and_iff_not_or_not] at hn
        simp only [List.flatten_cons, List.length_append, List.length_take]
        rcases hn with hn | hn
        · omega
        · have := hshort hn
          omega

theorem AcceptsAll.recorded {out : OutStream τ} {received : τ → List Byte}
    (h : AcceptsAll out received) : AcceptsAll out.recorded (fun p => received p.1) := by
  intro p data
  obtain ⟨t', hw, hr⟩ := h p.1 data
  exact ⟨(t', p.2 ++ [data]), by simp [OutStream.recorded, hw], hr⟩

theorem OutStream.Took.recorded {out : OutStream τ} {p p' : τ × List (List Byte)}
    {pieces : List (List Byte)} (h : out.recorded.Took p pieces p') : p'.2 = p.2 ++ pieces := by
  induction h with
  | none p => simp
  | @piece p u p' piece pieces head tail ih =>
    obtain ⟨⟨r, t⟩, _, hp⟩ := bind_ok head
    cases hp
    simpa using ih

theorem AcceptsAll.takes {out : OutStream τ} {received : τ → List Byte}
    (h : AcceptsAll out received) (pieces : List (List Byte)) : ∀ t, out.takes t pieces := by
  induction pieces with
  | nil => exact fun _ => trivial
  | cons piece pieces ih =>
    intro t
    obtain ⟨t', hw, _⟩ := h t piece
    exact ⟨t', hw, ih t'⟩

/-- What an all-or-nothing sink holds after taking pieces is what it held and
the pieces in order. -/
theorem AllOrNothing.took {out : OutStream τ} {received : τ → List Byte}
    (h : AllOrNothing out received) {t t' : τ} {pieces : List (List Byte)}
    (ht : out.Took t pieces t') : received t' = received t ++ pieces.flatten := by
  induction ht with
  | none t => simp
  | @piece t t' t'' piece pieces head tail ih =>
    rcases h t piece with ⟨u, hw, _⟩ | ⟨u, hw, hr⟩
    · rw [head] at hw
      simp only [Except.ok.injEq, Prod.mk.injEq] at hw
      omega
    · rw [head] at hw
      cases hw
      rw [ih, hr, List.flatten_cons, List.append_assoc]

end

end CkCore
