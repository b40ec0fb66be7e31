import Mathlib.Data.List.Nodup
import CkCore.Lib.Census
import CkCore.Model.DirectoryIterator

namespace CkCore.Proofs.DirectoryIterator
open Lib CkCore.DirectoryIterator CkCore.DirectoryScan

/-- The entries a loop is to visit. -/
def visible (entries : List (List Byte)) : List (List Byte) :=
  entries.filter fun name => !dots name

/-- The loop has compared its iterator equal to end(). -/
def finished (l : DirectoryLoop) : Prop := equal l.it «end» = true

/-- The address of a begin(). -/
def address : DirectoryEvent → Option Nat
  | .begin address => some address
  | .advance _ => none

/-- The addresses of all iterators begin() has constructed so far. -/
def begun (past : List (DirectoryScan × DirectoryEvent)) : List Nat :=
  past.filterMap fun p => address p.2

def handles (s : DirectoryScan) : List (Option Nat) := s.loops.map fun l => l.it.dirHandle

/-- The number of names a loop has seen of the stream. -/
def share (dirHandle : Nat) (l : DirectoryLoop) : Nat :=
  if l.it.dirHandle = some dirHandle then l.visited.length else 0

/-- What every run keeps: each stream was opened for some loop, and every name
it has returned was seen by one of the loops on it. -/
structure Sound (s : DirectoryScan) : Prop where
  known : ∀ address dirHandle, s.dirHandles.lookup address = some dirHandle →
    dirHandle < s.streams.length
  held : ∀ l ∈ s.loops, ∃ dirHandle, dirHandle < s.streams.length ∧ l.it.dirHandle = some dirHandle
  owned : ∀ dirHandle, dirHandle < s.streams.length → some dirHandle ∈ handles s
  ended : ∀ l ∈ s.loops, ∀ dirHandle, l.it.dirHandle = some dirHandle → l.it.curEnt = none →
    s.streams[dirHandle]? = some []
  shared : ∀ (dirHandle : Nat) left, s.streams[dirHandle]? = some left →
    weight (share dirHandle) s.loops + (visible left).length = (visible s.entries).length
  alone : (handles s).Nodup → ∀ l ∈ s.loops, ∀ (dirHandle : Nat) left,
    l.it.dirHandle = some dirHandle → s.streams[dirHandle]? = some left →
    l.visited ++ visible left = visible s.entries

theorem skip_visible (left : List (List Byte)) :
    visible left = (skip left).1.toList ++ visible (skip left).2 := by
  induction left with
  | nil => rfl
  | cons name left ih =>
    unfold skip
    split
    · next hd => simpa [visible, hd] using ih
    · next hd => simp [visible, hd]

theorem skip_none {left : List (List Byte)} (h : (skip left).1 = none) : (skip left).2 = [] := by
  induction left with
  | nil => rfl
  | cons name left ih =>
    unfold skip at h ⊢
    split at h
    · next hd => simpa [hd] using ih h
    · cases h

section
variable {s s' : DirectoryScan}

theorem next_eq {dirHandle : Nat} {left : List (List Byte)}
    (h : s.streams[dirHandle]? = some left) :
    s.next dirHandle =
      ((skip left).1, { s with streams := s.streams.set dirHandle (skip left).2 }) := by
  simp [next, h]

/-- A begin() at an address not used before reads from a stream of its own. -/
theorem begin_opens {a : Nat} (hn : s.dirHandles.lookup a = none) :
    s.begin a = { s with
      dirHandles := s.dirHandles ++ [(a, s.streams.length)]
      streams := s.streams ++ [(skip s.entries).2]
      loops := s.loops ++ [⟨⟨some s.streams.length, (skip s.entries).1⟩,
        (skip s.entries).1.toList⟩] } := by
  simp [begin, handle, hn, next]

/-- At an address used before it goes on reading where that stream is. -/
theorem begin_shares {a dirHandle : Nat} {left : List (List Byte)}
    (hn : s.dirHandles.lookup a = some dirHandle) (hl : s.streams[dirHandle]? = some left) :
    s.begin a = { s with
      streams := s.streams.set dirHandle (skip left).2
      loops := s.loops ++ [⟨⟨some dirHandle, (skip left).1⟩, (skip left).1.toList⟩] } := by
  simp [begin, handle, hn, next_eq hl]

/-- All operator++ can do: nothing at the end, else the next name of the stream. -/
theorem advance_cases (h : Sound s) {i : Nat} (hs : s.advance i = some s') :
    s' = s ∨ ∃ l dirHandle left, s.loops[i]? = some l ∧ l.it.dirHandle = some dirHandle ∧
      s.streams[dirHandle]? = some left ∧ s' = { s with
        streams := s.streams.set dirHandle (skip left).2
        loops := s.loops.set i
          ⟨⟨some dirHandle, (skip left).1⟩, l.visited ++ (skip left).1.toList⟩ } := by
  unfold advance at hs
  split at hs
  · cases hs
  · next l hi =>
    split at hs
    · next dirHandle name hd hc =>
      obtain ⟨dirHandle', hlt, hd'⟩ := h.held l (List.mem_of_getElem? hi)
      rw [hd] at hd'
      cases hd'
      have hl : s.streams[dirHandle]? = some s.streams[dirHandle] := List.getElem?_eq_getElem hlt
      rw [next_eq hl] at hs
      exact Or.inr ⟨l, dirHandle, _, hi, hd, hl, (Option.some.inj hs).symm⟩
    · exact Or.inl (Option.some.inj hs).symm

theorem create_run (entries : List (List Byte)) : system.Run [] (create entries) :=
  .start ⟨entries, rfl⟩

theorem create_sound (entries : List (List Byte)) : Sound (create entries) := by
  constructor <;> simp [create]

/-- A stream at its end stays there. -/
theorem set_ended {streams : List (List (List Byte))} {d d' : Nat} {left : List (List Byte)}
    (hl : streams[d]? = some left) (hend : streams[d']? = some []) :
    (streams.set d (skip left).2)[d']? = some [] := by
  by_cases hd : d' = d
  · subst hd
    rw [hl] at hend
    cases hend
    rw [List.getElem?_set_self (List.getElem?_eq_some_iff.mp hl).1]
    rfl
  · rw [List.getElem?_set_ne (fun he => hd he.symm)]
    exact hend

theorem share_other {d d' : Nat} {l : DirectoryLoop} (hl : l.it.dirHandle = some d) (hd : d' ≠ d) :
    share d' l = 0 := by
  have hne : ¬ d = d' := fun he => hd he.symm
  simp [share, hl, hne]

theorem share_own {d : Nat} {l : DirectoryLoop} (hl : l.it.dirHandle = some d) :
    share d l = l.visited.length := by
  simp [share, hl]

/-- No loop has anything of a stream that does not exist yet. -/
theorem Sound.share_fresh (h : Sound s) : weight (share s.streams.length) s.loops = 0 := by
  apply weight_zero
  intro l hl
  obtain ⟨d, hlt, hd⟩ := h.held l hl
  exact share_other hd (by omega)

theorem push_stream {streams : List (List (List Byte))} {d : Nat} {left rest : List (List Byte)}
    (h : (streams ++ [rest])[d]? = some left) :
    streams[d]? = some left ∨ (d = streams.length ∧ left = rest) := by
  by_cases hlt : d < streams.length
  · rw [List.getElem?_append_left hlt] at h
    exact Or.inl h
  · have hlast := (List.getElem?_eq_some_iff.mp h).1
    rw [List.length_append, List.length_singleton] at hlast
    obtain rfl : d = streams.length := by omega
    rw [List.getElem?_concat_length] at h
    exact Or.inr ⟨rfl, (Option.some.inj h).symm⟩

/-- A begin() at a new address keeps the accounts: the new loop is the only one
on the new stream. -/
theorem Sound.opens (h : Sound s) {a : Nat} (hn : s.dirHandles.lookup a = none) :
    Sound (s.begin a) := by
  rw [begin_opens hn]
  have hfirst := skip_visible s.entries
  refine ⟨?_, ?_, ?_, ?_, ?_, ?_⟩
  · intro b d hb
    rw [List.lookup_append, Option.or_eq_some_iff] at hb
    rw [List.length_append, List.length_singleton]
    rcases hb with hb | ⟨_, hb⟩
    · have := h.known b d hb
      omega
    · rw [List.lookup_cons] at hb
      split at hb
      · cases hb
        omega
      · cases hb
  · intro l hl
    rw [List.length_append, List.length_singleton]
    rcases List.mem_append.mp hl with hl | hl
    · obtain ⟨d, hlt, hd⟩ := h.held l hl
      exact ⟨d, by omega, hd⟩
    · rw [List.mem_singleton.mp hl]
      exact ⟨_, Nat.lt_succ_self _, rfl⟩
  · intro d hlt
    rw [List.length_append, List.length_singleton] at hlt
    simp only [handles, List.map_append, List.mem_append]
    by_cases hd : d < s.streams.length
    · exact Or.inl (h.owned d hd)
    · obtain rfl : d = s.streams.length := by omega
      exact Or.inr (List.mem_singleton.mpr rfl)
  · intro l hl d hd hc
    rcases List.mem_append.mp hl with hl | hl
    · have hend := h.ended l hl d hd hc
      exact (List.getElem?_append_left (List.getElem?_eq_some_iff.mp hend).1).trans hend
    · rw [List.mem_singleton.mp hl] at hd hc
      cases hd
      rw [List.getElem?_concat_length, skip_none hc]
  · intro d left hleft
    rw [weight_append]
    rcases push_stream hleft with hold | ⟨rfl, rfl⟩
    · have hlt := (List.getElem?_eq_some_iff.mp hold).1
      have hshared := h.shared d left hold
      rw [share_other (d := s.streams.length) rfl (by omega)]
      exact hshared
    · rw [h.share_fresh, share_own rfl, hfirst, List.length_append]
      dsimp only
      omega
  · intro hnodup l hl d left hd hleft
    have hbefore : (handles s).Nodup := by
      simp only [handles, List.map_append] at hnodup
      exact (List.nodup_append.mp hnodup).1
    rcases List.mem_append.mp hl with hl | hl
    · rcases push_stream hleft with hold | ⟨rfl, rfl⟩
      · exact h.alone hbefore l hl d left hd hold
      · obtain ⟨d, hlt, hd'⟩ := h.held l hl
        rw [hd] at hd'
        cases hd'
        omega
    · rw [List.mem_singleton.mp hl] at hd ⊢
      cases hd
      rcases push_stream hleft with hold | ⟨_, rfl⟩
      · have := (List.getElem?_eq_some_iff.mp hold).1
        omega
      · exact hfirst.symm

/-- A begin() at an old address adds a loop to a stream that has one. -/
theorem Sound.not_nodup (h : Sound s) {a d : Nat} (hn : s.dirHandles.lookup a = some d) :
    ¬ (handles (s.begin a)).Nodup := by
  have hlt := h.known a d hn
  rw [begin_shares hn (List.getElem?_eq_getElem hlt)]
  simp only [handles, List.map_append]
  intro hnodup
  have hdisjoint := (List.nodup_append.mp hnodup).2.2
  exact hdisjoint _ (h.owned d hlt) _ (List.mem_singleton.mpr rfl) rfl

theorem Sound.shares (h : Sound s) {a d : Nat} (hn : s.dirHandles.lookup a = some d) :
    Sound (s.begin a) := by
  have hnodup := h.not_nodup hn
  have hlt := h.known a d hn
  have hl : s.streams[d]? = some s.streams[d] := List.getElem?_eq_getElem hlt
  rw [begin_shares hn hl] at hnodup ⊢
  refine ⟨?_, ?_, ?_, ?_, ?_, fun hno => absurd hno hnodup⟩
  · intro b d' hb
    rw [List.length_set]
    exact h.known b d' hb
  · intro l hm
    rw [List.length_set]
    rcases List.mem_append.mp hm with hm | hm
    · exact h.held l hm
    · rw [List.mem_singleton.mp hm]
      exact ⟨d, hlt, rfl⟩
  · intro d' hlt'
    rw [List.length_set] at hlt'
    simp only [handles, List.map_append, List.mem_append]
    exact Or.inl (h.owned d' hlt')
  · intro l hm d' hd hc
    rcases List.mem_append.mp hm with hm | hm
    · exact set_ended hl (h.ended l hm d' hd hc)
    · rw [List.mem_singleton.mp hm] at hd hc
      cases hd
      rw [List.getElem?_set_self hlt, skip_none hc]
  · intro d' left hleft
    rw [weight_append]
    rcases cell_set hl hleft with ⟨rfl, rfl⟩ | ⟨hd, hold⟩
    · have hshared := h.shared _ _ hl
      rw [skip_visible, List.length_append] at hshared
      rw [share_own rfl]
      dsimp only
      omega
    · rw [share_other (d := d) rfl hd]
      exact h.shared d' left hold

theorem Sound.advances (h : Sound s) {i : Nat} (hs : s.advance i = some s') :
    Sound s' ∧ handles s' = handles s ∧ s'.dirHandles = s.dirHandles := by
  rcases advance_cases h hs with rfl | ⟨l, d, old, hi, hd, hl, rfl⟩
  · exact ⟨h, rfl, rfl⟩
  have hm := List.mem_of_getElem? hi
  have hlt := (List.getElem?_eq_some_iff.mp hl).1
  have hkept : handles { s with
      streams := s.streams.set d (skip old).2
      loops := s.loops.set i ⟨⟨some d, (skip old).1⟩, l.visited ++ (skip old).1.toList⟩ } =
      handles s := map_set_same hi hd.symm
  refine ⟨⟨?_, ?_, ?_, ?_, ?_, ?_⟩, hkept, rfl⟩
  · intro a d' ha
    rw [List.length_set]
    exact h.known a d' ha
  · intro l' hm'
    rw [List.length_set]
    rcases List.mem_or_eq_of_mem_set hm' with hm' | rfl
    · exact h.held l' hm'
    · exact ⟨d, hlt, rfl⟩
  · intro d' hlt'
    rw [List.length_set] at hlt'
    rw [hkept]
    exact h.owned d' hlt'
  · intro l' hm' d' hd' hc
    rcases List.mem_or_eq_of_mem_set hm' with hm' | rfl
    · exact set_ended hl (h.ended l' hm' d' hd' hc)
    · cases hd'
      rw [List.getElem?_set_self hlt, skip_none hc]
  · intro d' left hleft
    have hweight := weight_set (share d') hi
      ⟨⟨some d, (skip old).1⟩, l.visited ++ (skip old).1.toList⟩
    rcases cell_set hl hleft with ⟨rfl, rfl⟩ | ⟨hne, hold⟩
    · have hshared := h.shared _ _ hl
      rw [skip_visible, List.length_append] at hshared
      rw [share_own hd, share_own rfl, List.length_append] at hweight
      dsimp only
      omega
    · have hshared := h.shared d' left hold
      rw [share_other hd hne, share_other (d := d) rfl hne] at hweight
      dsimp only
      omega
  · intro hnodup l' hm' d' left hd' hleft
    rw [hkept] at hnodup
    obtain ⟨j, hj⟩ := List.getElem?_of_mem hm'
    rcases cell_set hi hj with ⟨_, rfl⟩ | ⟨hji, hother⟩
    · cases hd'
      rcases cell_set hl hleft with ⟨_, rfl⟩ | ⟨hne, _⟩
      · rw [List.append_assoc, ← skip_visible]
        exact h.alone hnodup l hm d old hd hl
      · exact absurd rfl hne
    · rcases cell_set hl hleft with ⟨rfl, _⟩ | ⟨_, hold⟩
      · exact absurd (same_cell hnodup hother hi (hd'.trans hd.symm)) hji
      · exact h.alone hnodup l' (List.mem_of_getElem? hother) d' left hd' hold

/-- What the history says about the state: the addresses that have a stream, and
whether the loops share any. -/
structure Tracked (past : List (DirectoryScan × DirectoryEvent)) (s : DirectoryScan) : Prop where
  sound : Sound s
  unused : ∀ a, s.dirHandles.lookup a = none ↔ a ∉ begun past
  distinct : (handles s).Nodup ↔ (begun past).Nodup

theorem begun_begin (past : List (DirectoryScan × DirectoryEvent)) (a : Nat) :
    begun (past ++ [(s, .begin a)]) = begun past ++ [a] := by
  simp [begun, address]

theorem begun_advance (past : List (DirectoryScan × DirectoryEvent)) (i : Nat) :
    begun (past ++ [(s, .advance i)]) = begun past := by
  simp [begun, address]

theorem Tracked.begin {past : List (DirectoryScan × DirectoryEvent)} (h : Tracked past s)
    (a : Nat) : Tracked (past ++ [(s, .begin a)]) (s.begin a) := by
  have hunused := h.unused a
  cases hn : s.dirHandles.lookup a with
  | none =>
    have hnew : a ∉ begun past := hunused.mp hn
    refine ⟨h.sound.opens hn, ?_, ?_⟩
    · intro b
      rw [begin_opens hn, begun_begin, List.lookup_append, Option.or_eq_none_iff, h.unused b,
        List.mem_append, not_or, List.mem_singleton, List.lookup_cons]
      by_cases hb : b = a
      · simp [hb]
      · have hne : (b == a) = false := beq_false_of_ne hb
        simp [hne, hb]
    · have hfree : some s.streams.length ∉ handles s := by
        intro hmem
        obtain ⟨l, hl, hd⟩ := List.mem_map.mp hmem
        obtain ⟨d, hlt, hd'⟩ := h.sound.held l hl
        rw [hd] at hd'
        cases hd'
        omega
      have hhandles : handles (s.begin a) = handles s ++ [some s.streams.length] := by
        rw [begin_opens hn]
        simp [handles]
      rw [hhandles, begun_begin, ← List.concat_eq_append, ← List.concat_eq_append,
        List.nodup_concat, List.nodup_concat, h.distinct]
      exact ⟨fun hno => ⟨hnew, hno.2⟩, fun hno => ⟨hfree, hno.2⟩⟩
  | some d =>
    have hold : a ∈ begun past := by
      apply Classical.byContradiction
      intro hout
      rw [hunused.mpr hout] at hn
      cases hn
    have hlt := h.sound.known a d hn
    refine ⟨h.sound.shares hn, ?_, ?_⟩
    · intro b
      rw [begin_shares hn (List.getElem?_eq_getElem hlt), begun_begin, List.mem_append, not_or,
        List.mem_singleton, h.unused b]
      constructor
      · intro hb
        exact ⟨hb, fun he => hb (he ▸ hold)⟩
      · exact fun hb => hb.1
    · rw [begun_begin, ← List.concat_eq_append, List.nodup_concat]
      exact iff_of_false (h.sound.not_nodup hn) fun hno => hno.1 hold

theorem run_tracked {past : List (DirectoryScan × DirectoryEvent)} (h : system.Run past s) :
    Tracked past s := by
  induction h with
  | start h =>
    obtain ⟨entries, rfl⟩ := h
    exact ⟨create_sound entries, fun a => iff_of_true rfl List.not_mem_nil,
      iff_of_true List.nodup_nil List.nodup_nil⟩
  | @next s s' e past before hs ih =>
    cases e with
    | begin a =>
      cases hs
      exact ih.begin a
    | advance i =>
      obtain ⟨hsound, hhandles, hknown⟩ := ih.sound.advances hs
      refine ⟨hsound, ?_, ?_⟩
      · intro a
        rw [hknown, begun_advance]
        exact ih.unused a
      · rw [hhandles, begun_advance]
        exact ih.distinct

theorem finished_none {l : DirectoryLoop} (h : finished l) : l.it.curEnt = none := by
  unfold finished equal at h
  cases hc : l.it.curEnt with
  | none => rfl
  | some name => simp [hc, «end»] at h

/-- A finished loop that shares its stream with no other has seen everything. -/
theorem Sound.finished_alone (h : Sound s) (hnodup : (handles s).Nodup) {l : DirectoryLoop}
    (hl : l ∈ s.loops) (hf : finished l) : l.visited = visible s.entries := by
  obtain ⟨d, _, hd⟩ := h.held l hl
  have hall := h.alone hnodup l hl d [] hd (h.ended l hl d hd (finished_none hf))
  rw [← hall]
  exact (List.append_nil _).symm

/-- When every finished loop has seen everything and there is something to see,
no two of them share a stream. -/
theorem Sound.nodup_of_all (h : Sound s) (hf : ∀ l ∈ s.loops, finished l)
    (hall : ∀ l ∈ s.loops, l.visited = visible s.entries) (hsome : visible s.entries ≠ []) :
    (handles s).Nodup := by
  apply List.nodup_iff_count.mpr
  intro handle
  by_cases hmem : handle ∈ handles s
  · obtain ⟨l, hl, rfl⟩ := List.mem_map.mp hmem
    obtain ⟨d, _, hd⟩ := h.held l hl
    have hshared := h.shared d [] (h.ended l hl d hd (finished_none (hf l hl)))
    rw [weight_count (n := (visible s.entries).length)
      (fun l => decide (l.it.dirHandle = some d)) ?_] at hshared
    · have hpos := List.length_pos_iff.mpr hsome
      have hcount : s.loops.countP (fun l => decide (l.it.dirHandle = some d)) = 1 := by
        apply Nat.eq_of_mul_eq_mul_right hpos
        rw [Nat.one_mul]
        exact hshared
      rw [handles, List.count, List.countP_map]
      apply Nat.le_of_eq
      rw [← hcount]
      apply List.countP_congr
      intro l' _
      simp [hd]
    · intro l' hl'
      simp [share, hall l' hl']
  · rw [List.count_eq_zero_of_not_mem hmem]
    exact Nat.zero_le 1

/-- As long as every begin() finds an address not used before, each loop that
comes to its end has visited everything. Once all loops are at their ends they
have all done so only then, unless there was nothing to visit. -/
theorem loops_visit_iff {past : List (DirectoryScan × DirectoryEvent)} (h : system.Run past s) :
    ((begun past).Nodup → ∀ l ∈ s.loops, finished l → l.visited = visible s.entries) ∧
    ((∀ l ∈ s.loops, finished l) →
      ((∀ l ∈ s.loops, l.visited = visible s.entries) ↔
        (begun past).Nodup ∨ visible s.entries = [])) := by
  have htracked := run_tracked h
  have hsound := htracked.sound
  have halone : (begun past).Nodup →
      ∀ l ∈ s.loops, finished l → l.visited = visible s.entries := by
    intro hnodup l hl hf
    exact hsound.finished_alone (htracked.distinct.mpr hnodup) hl hf
  refine ⟨halone, ?_⟩
  intro hf
  constructor
  · intro hall
    by_cases hsome : visible s.entries = []
    · exact Or.inr hsome
    · exact Or.inl (htracked.distinct.mp (hsound.nodup_of_all hf hall hsome))
  · rintro (hnodup | hnone) l hl
    · exact halone hnodup l hl (hf l hl)
    · obtain ⟨d, _, hd⟩ := hsound.held l hl
      have hshared := hsound.shared d [] (hsound.ended l hl d hd (finished_none (hf l hl)))
      have hmost := weight_mem (share d) hl
      rw [share_own hd] at hmost
      have hzero : (visible s.entries).length = 0 := by rw [hnone, List.length_nil]
      rw [hnone]
      apply List.eq_nil_of_length_eq_zero
      omega

end

/-- Two loops one after the other, at different addresses. -/
theorem loops_visit_twice :
    ∃ past s, system.Run past s ∧ s.loops.length = 2 ∧
      ∀ l ∈ s.loops, l.visited = visible s.entries := by
  have hloops : ∃ past s, follow step [] (create [[46], [97], [46, 46], [98]])
      [.begin 7, .advance 0, .advance 0, .begin 8, .advance 1, .advance 1] = some (past, s) ∧
      s.loops.length = 2 ∧ (begun past).Nodup ∧ ∀ l ∈ s.loops, finished l := by
    refine ⟨_, _, rfl, rfl, by decide, ?_⟩
    unfold finished
    decide
  obtain ⟨past, s, hfollow, hlength, hnodup, hf⟩ := hloops
  have hrun : system.Run past s := (create_run [[46], [97], [46, 46], [98]]).follow hfollow
  exact ⟨past, s, hrun, hlength, ((loops_visit_iff hrun).2 hf).mpr (Or.inl hnodup)⟩

/-- The second of two loops whose iterators were built at one address starts at
the end and visits nothing. -/
theorem reused_address_visits_nothing :
    ∃ past s, system.Run past s ∧ (∀ l ∈ s.loops, finished l) ∧
      s.loops.map DirectoryLoop.visited = [[[97]], []] ∧ visible s.entries = [[97]] := by
  have hloops : ∃ past s, follow step [] (create [[46], [46, 46], [97]])
      [.begin 7, .advance 0, .begin 7] = some (past, s) ∧ (∀ l ∈ s.loops, finished l) ∧
      s.loops.map DirectoryLoop.visited = [[[97]], []] ∧ visible s.entries = [[97]] := by
    refine ⟨_, _, rfl, ?_, rfl, rfl⟩
    unfold finished
    decide
  obtain ⟨past, s, hfollow, hrest⟩ := hloops
  exact ⟨past, s, (create_run [[46], [46, 46], [97]]).follow hfollow, hrest⟩

end CkCore.Proofs.DirectoryIterator
