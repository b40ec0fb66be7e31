import CkCore.Model.Stream

namespace CkCore
open Lib

/-- A source over fixed content that delivers at most `piece` bytes at a time.
Its state is the number of bytes delivered. -/
def pieces (content : List Byte) (piece : Nat) : InStream (Fin (content.length + 1)) where
  read s count :=
    let data := (content.drop s.val).take (min piece count)
    .ok (⟨data.length, data⟩, ⟨s.val + data.length, by
      have := s.isLt
      simp only [data, List.length_take, List.length_drop]
      omega⟩)
  size _ := content.length
  «end» s := s.val == content.length
  seek
    | _, distance, .begin => .ok (true, ⟨min distance content.length, by omega⟩)
    | s, distance, .current => .ok (true, ⟨min (s.val + distance) content.length, by omega⟩)

/-- The piecewise source meets the contract of a source that never fails. -/
theorem pieces_serves (content : List Byte) (piece : Nat) (hp : 0 < piece) :
    Serves (pieces content piece) content Fin.val := by
  refine ⟨fun s => by omega, fun s => by simp [pieces], ?_, ?_⟩
  · intro s n hs hn
    refine ⟨(content.drop s).take (min piece n), _, rfl, ?_, ?_, List.take_prefix _ _, rfl⟩
    · simp only [List.length_take, List.length_drop]
      omega
    · simp only [List.length_take]
      omega
  · intro s
    exact ⟨0, by simp [pieces], rfl⟩

/-- With pieces as long as the content nothing is held back. -/
theorem pieces_exact (content : List Byte) :
    Exact (pieces content content.length) content Fin.val := by
  refine ⟨fun s => by omega, fun s => by simp [pieces], ?_, ?_, ?_⟩
  · intro s n
    have hall : (content.drop s).take (min content.length n) = (content.drop s).take n := by
      rw [List.take_eq_take_iff, List.length_drop]
      omega
    have hrest : content.drop (s + ((content.drop s).take n).length) =
        (content.drop s).drop n := by
      rw [List.drop_drop, List.drop_eq_drop_iff, List.length_take, List.length_drop]
      omega
    rw [← hall] at hrest ⊢
    exact ⟨_, rfl, hrest⟩
  · intro s n hn
    exact ⟨⟨n, by omega⟩, by simp [pieces, hn], rfl⟩
  · intro s n hn
    exact ⟨⟨s + n, by omega⟩, by simp [pieces, hn], rfl⟩

/-- A sink that answers each write from a script, true for accepting it, and
accepts everything once the script is over. -/
def scripted : OutStream (List Bool × List Byte) where
  write t data :=
    match t.1 with
    | false :: answers => .ok (-1, (answers, t.2))
    | true :: answers => .ok (data.length, (answers, t.2 ++ data))
    | [] => .ok (data.length, ([], t.2 ++ data))

theorem scripted_all_or_nothing : AllOrNothing scripted Prod.snd := by
  intro t data
  obtain ⟨answers, got⟩ := t
  match answers with
  | false :: answers => exact Or.inl ⟨_, rfl, rfl⟩
  | true :: answers => exact Or.inr ⟨_, rfl, rfl⟩
  | [] => exact Or.inr ⟨_, rfl, rfl⟩

/-- A sink that appends whatever it is given. -/
def collector : OutStream (List Byte) where
  write t data := .ok (data.length, t ++ data)

theorem collector_accepts : AcceptsAll collector id := fun t data => ⟨t ++ data, rfl, rfl⟩

/-- A sink that consumes at most `room` bytes of each write. -/
def capped (room : Nat) : OutStream (List Byte) where
  write t data := .ok ((data.take room).length, t ++ data.take room)

theorem capped_accepts (room : Nat) : AcceptsFront (capped room) id := by
  intro t data
  refine ⟨(data.take room).length, t ++ data.take room, ?_, rfl, ?_⟩
  · simp only [List.length_take]
    omega
  · simp [List.length_take, List.take_eq_take_iff]

theorem capped_consumes (room : Nat) : Consumes (capped room) id :=
  (capped_accepts room).consumes

end CkCore
