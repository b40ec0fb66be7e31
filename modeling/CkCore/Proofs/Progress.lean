import CkCore.Spec.Progress
import CkCore.Spec.Streams

namespace CkCore.Proofs.Progress
open Lib Copy

theorem toLong_small {n : Nat} (h : n < 0x8000000000000000) : toLong n = n := by
  have hword : longWord = 0x10000000000000000 := rfl
  unfold toLong
  apply Int.bmod_eq_of_le
  · rw [hword]
    omega
  · rw [hword]
    omega

theorem part_most {part total : Nat} (hpos : 0 < total) (hle : part ≤ total) :
    part * 100 / total ≤ 100 := by
  rw [Nat.div_le_iff_le_mul_add_pred hpos]
  have hmul : part * 100 ≤ total * 100 := Nat.mul_le_mul_right 100 hle
  omega

/-- The percentage of a part of the total comes out of the conversions whole. -/
theorem percent_part {part total : Nat} (hpos : 0 < total) (hle : part ≤ total)
    (hlarge : total * 100 < 0x8000000000000000) :
    ∃ byte, percent part total = some byte ∧ byte.toNat = part * 100 / total := by
  have hne : ¬ (total : Int) = 0 := by omega
  have hwhole := part_most hpos hle
  have hmul : (part : Int) * 100 = ((part * 100 : Nat) : Int) := by omega
  refine ⟨UInt8.ofInt ((part * 100 / total : Nat) : Int), ?_, ?_⟩
  · unfold percent
    rw [if_neg hne, hmul, toLong_small (by omega), Int.ofNat_tdiv]
  · generalize part * 100 / total = whole at hwhole
    unfold UInt8.ofInt
    rw [UInt8.toNat_ofNat']
    omega

section
variable {σ τ π : Type} {src : InStream σ} {out : OutStream τ} {progress : Progress π}
  {content : List Byte} {pos : σ → Nat} {total : Int}

/-- Where the copy is in its loop: what it has counted has come from the source,
and no percentage given so far is above what that amounts to. -/
structure Tracks (content : List Byte) (pos : σ → Nat) (c : Tracking σ τ (π × List Byte)) :
    Prop where
  buffer : c.buffer.length = bufferSize
  rising : Rising c.progress.2
  written : ∃ part : Nat, c.written = part ∧ part ≤ pos c.source ∧
    ∀ past ∈ c.progress.2, past.toNat ≤ part * 100 / content.length

/-- Away from its end a source is read into the buffer and out of it again, or
the read fails. -/
theorem read_through (hsrc : Provides src content pos) {s : σ} (hend : ¬ src.end s = true)
    {buffer : List Byte} (hb : buffer.length = bufferSize) :
    (∃ data s' buffer', src.read s bufferSize = .ok (⟨-1, data⟩, s') ∧
      store buffer 0 data = .ok buffer') ∨
    ∃ data s' buffer', src.read s bufferSize = .ok (⟨data.length, data⟩, s') ∧
      store buffer 0 data = .ok buffer' ∧ buffer'.length = bufferSize ∧
      load buffer' 0 (toWord data.length) = .ok data ∧ pos s' = pos s + data.length := by
  have hbound := hsrc.bounded s
  have hlt : pos s < content.length := by
    rw [hsrc.ended s] at hend
    omega
  rcases hsrc.read s bufferSize hlt (by decide) with
    ⟨data, s', hread, hlen⟩ | ⟨data, s', hread, hlen, _, hpos⟩
  · left
    obtain ⟨buffer', hstore, _, _⟩ := through_buffer hb hlen
    exact ⟨data, s', buffer', hread, hstore⟩
  · right
    obtain ⟨buffer', hstore, hlength, hload⟩ := through_buffer hb hlen
    exact ⟨data, s', buffer', hread, hstore, hlength, hload, hpos⟩

/-- One more percentage is above those given so far, and no more than 100. -/
theorem Tracks.given {c : Tracking σ τ (π × List Byte)} (h : Tracks content pos c)
    {part part' : Nat} (hwritten : c.written = part) (hle : part ≤ part')
    (hpart : part' ≤ content.length) {given : Byte}
    (hgiven : given.toNat = part' * 100 / content.length) (hpos : 0 < content.length) :
    Rising (c.progress.2 ++ [given]) ∧
      ∀ past ∈ c.progress.2 ++ [given], past.toNat ≤ part' * 100 / content.length := by
  obtain ⟨_, hsame, _, hpast⟩ := h.written
  cases Int.ofNat.inj (hwritten.symm.trans hsame)
  have hmono : part * 100 / content.length ≤ part' * 100 / content.length :=
    Nat.div_le_div_right (Nat.mul_le_mul_right 100 hle)
  have hmost := part_most hpos hpart
  constructor
  · apply h.rising.snoc
    · intro past hp
      rw [UInt8.le_iff_toNat_le, hgiven]
      exact Nat.le_trans (hpast past hp) hmono
    · rw [UInt8.le_iff_toNat_le, hgiven]
      exact hmost
  · refine List.forall_mem_append.mpr ⟨?_, List.forall_mem_singleton.mpr (Nat.le_of_eq hgiven)⟩
    intro past hp
    exact Nat.le_trans (hpast past hp) hmono

/-- A pass keeps what the loop relies on, or leaves, and does not trap. -/
theorem track_pass (hsrc : Provides src content pos)
    (htotal : total = -1 ∨ total = content.length)
    (hlarge : content.length * 100 < 0x8000000000000000) (hout : Counts out)
    (progress : Progress π) (c : Tracking σ τ (π × List Byte)) (h : Tracks content pos c) :
    (∃ c', trackPass src out progress.recorded total c = .ok (.again c') ∧
      Tracks content pos c') ∨
    ∃ r, trackPass src out progress.recorded total c = .ok (.leave r) ∧
      ∃ copied, r = some copied ∧ Rising copied.progress.2 := by
  obtain ⟨part, hwritten, hpart, hpast⟩ := h.written
  unfold trackPass
  by_cases hend : src.end c.source = true
  · right
    rw [if_pos hend]
    exact ⟨_, rfl, _, rfl, h.rising⟩
  · rw [if_neg hend]
    rcases hq : progress.cancelled c.progress.1 with ⟨cancelled, q⟩
    have hcancelled : progress.recorded.cancelled c.progress = (cancelled, (q, c.progress.2)) := by
      simp only [Progress.recorded, hq]
    simp only [hcancelled]
    cases cancelled with
    | true => exact Or.inr ⟨_, rfl, _, rfl, h.rising⟩
    | false =>
      rcases read_through hsrc hend h.buffer with
        ⟨data, s', buffer', hread, hstore⟩ |
        ⟨data, s', buffer', hread, hstore, hlength, hload, hpos⟩
      · right
        simp only [Bool.false_eq_true, if_false, hread, ok_bind, hstore, if_true]
        exact ⟨_, rfl, _, rfl, h.rising⟩
      · have hret : ¬ (data.length : Int) = -1 := by omega
        simp only [Bool.false_eq_true, if_false, hread, ok_bind, hstore, hret, hload]
        obtain ⟨r, t', hwrite, hr⟩ := hout c.sink data
        simp only [hwrite, ok_bind]
        by_cases hfail : r = -1
        · right
          rw [if_pos hfail]
          exact ⟨_, rfl, _, rfl, h.rising⟩
        · left
          rw [if_neg hfail]
          obtain ⟨k, rfl⟩ : ∃ k : Nat, r = k := ⟨r.toNat, by omega⟩
          have hbound := hsrc.bounded s'
          rcases htotal with rfl | rfl
          · refine ⟨_, rfl, hlength, h.rising, part, hwritten, ?_, hpast⟩
            dsimp only
            omega
          · have hnone : ¬ (content.length : Int) = -1 := by omega
            have hpositive : 0 < content.length := by
              have hbefore := hsrc.bounded c.source
              rw [hsrc.ended c.source] at hend
              omega
            have hle : part + k ≤ content.length := by omega
            have hsum : toLong (c.written + k) = ((part + k : Nat) : Int) := by
              rw [hwritten, ← Int.natCast_add, toLong_small (by omega)]
            obtain ⟨given, hpercent, hgiven⟩ := percent_part hpositive hle hlarge
            obtain ⟨hrising, hpasts⟩ :=
              h.given hwritten (Nat.le_add_right part k) hle hgiven hpositive
            simp only [hnone, ne_eq, not_false_eq_true, if_true, hsum, hpercent]
            refine ⟨_, rfl, hlength, hrising, part + k, rfl, ?_, hpasts⟩
            dsimp only
            omega

theorem start_tracks (content : List Byte) (pos : σ → Nat) (s : σ) (t : τ) (p : π) :
    Tracks content pos (.start s t (p, []) : Tracking σ τ (π × List Byte)) :=
  ⟨List.length_replicate, .none, 0, rfl, Nat.zero_le _, nofun⟩

/-- However the source is read and the sink takes it, no percentage is above 100
or below the one in front of it, no division traps, and the last percentage of a
copy that came to the end of a source of known size is 100. -/
theorem percentages_rise (hsrc : Provides src content pos) {s : σ}
    (hsize : src.size s = -1 ∨ src.size s = content.length)
    (hlarge : content.length * 100 < 0x8000000000000000) (hout : Counts out)
    (progress : Progress π) (t : τ) (p : π) :
    (∀ c, Passes (trackPass src out progress.recorded (src.size s))
        (.start s t (progress.recorded.setMarquee (p, []) (src.size s = -1))) c →
      Rising c.progress.2) ∧
    ∀ fuel, copyProgress src out progress.recorded fuel s t (p, []) = .error .outOfFuel ∨
      ∃ copied, copyProgress src out progress.recorded fuel s t (p, []) = .ok (some copied) ∧
        Rising copied.progress.2 ∧
        (copied.ret = true → src.size s ≠ -1 → copied.progress.2.getLast? = some 100) := by
  have hstart := start_tracks content pos s t (progress.setMarquee p (src.size s = -1))
  have hpass := track_pass hsrc hsize hlarge hout progress
  constructor
  · intro c hpasses
    refine (hpasses.invariant (P := Tracks content pos) ?_ hstart).rising
    intro c c' hc hagain
    rcases hpass c hc with ⟨_, hsame, hc'⟩ | ⟨_, hleave, _⟩
    · rw [hagain] at hsame
      cases hsame
      exact hc'
    · rw [hagain] at hleave
      cases hleave
  · intro fuel
    unfold copyProgress
    rcases loop_partial hpass hstart fuel with hfuel | ⟨_, hloop, copied, rfl, hrising⟩
    · left
      dsimp only [Progress.recorded] at hfuel ⊢
      rw [hfuel]
      rfl
    · right
      dsimp only [Progress.recorded] at hloop ⊢
      rw [hloop, ok_bind]
      dsimp only
      by_cases hlast : copied.ret = true ∧ src.size s ≠ -1
      · rw [if_pos hlast]
        refine ⟨_, rfl, hrising.snoc hrising.most (by decide), fun _ _ => ?_⟩
        exact List.getLast?_concat
      · rw [if_neg hlast]
        exact ⟨copied, rfl, hrising, fun hret hknown => absurd ⟨hret, hknown⟩ hlast⟩

end

/-- A Progress object that does nothing and is never cancelled. -/
def silent : Progress Unit where
  setMarquee p _ := p
  setProgress p _ := p
  cancelled p := (false, p)

/-- Of a block of two bytes and one of one the sink takes one byte each. -/
theorem percentages_rise_short :
    copyProgress (pieces [1, 2, 3] 2) (capped 1) silent.recorded 3 0 [] ((), []) =
      .ok (some ⟨true, 3, [1, 3], ((), [33, 66, 100])⟩) ∧ Rising [33, 66, 100] := by
  have hrun : copyProgress (pieces [1, 2, 3] 2) (capped 1) silent.recorded 3 0 [] ((), []) =
      .ok (some ⟨true, 3, [1, 3], ((), [33, 66, 100])⟩) := ok_of_toOption (by decide +kernel)
  refine ⟨hrun, ?_⟩
  have hrises := percentages_rise (pieces_serves [1, 2, 3] 2 (by decide)).provides
    (s := 0) (Or.inr rfl) (by decide) (capped_consumes 1).counts silent [] ()
  rcases hrises.2 3 with hfuel | ⟨copied, hcopied, hrising, _⟩
  · rw [hrun] at hfuel
    cases hfuel
  · rw [hrun] at hcopied
    cases hcopied
    exact hrising

end CkCore.Proofs.Progress
