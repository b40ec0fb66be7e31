import CkCore.Model.FileStream
import CkCore.Spec.Returning
import CkCore.Spec.Streams

namespace CkCore.Proofs.CopyReturns
open Lib Copy

section
variable {σ τ π γ ρ : Type} {src : InStream σ} {out : OutStream τ} {rank : σ → Nat}
  {body : γ → Except Fault (Pass γ ρ)} {source : γ → σ} {sink : γ → τ} {need : γ → Nat}
  {inv : γ → Prop}

/-- A pass of a loop that copies: it leaves, or hands on what it read, and reads
as much the next time if that was nothing. -/
structure Reading (src : InStream σ) (out : OutStream τ) (body : γ → Except Fault (Pass γ ρ))
    (source : γ → σ) (sink : γ → τ) (need : γ → Nat) (c c' : γ) (data : List Byte) (r : Int) :
    Prop where
  pass : body c = .ok (.again c')
  more : src.end (source c) = false
  needs : 0 < need c ∧ need c ≤ bufferSize
  read : src.read (source c) (need c) = .ok (⟨data.length, data⟩, source c')
  write : out.write (sink c) data = .ok (r, sink c')
  took : r ≠ -1
  same : data = [] → need c' = need c

/-- Every pass of the loop is one of these, and keeps its invariant. -/
def Reads (src : InStream σ) (out : OutStream τ) (body : γ → Except Fault (Pass γ ρ))
    (source : γ → σ) (sink : γ → τ) (need : γ → Nat) (inv : γ → Prop) : Prop :=
  ∀ c, inv c → (∃ r, body c = .ok (.leave r)) ∨
    ∃ c' data r, inv c' ∧ Reading src out body source sink need c c' data r

/-- What is read from a dry source is nothing. -/
theorem Reading.nothing (hsrc : Drains src rank) {c c' : γ} {data : List Byte} {r : Int}
    (h : Reading src out body source sink need c c' data r) (hdry : rank (source c) = 0) :
    data = [] ∧ rank (source c') = 0 := by
  obtain ⟨s', hread, hs'⟩ := hsrc.dry (source c) (need c) hdry h.needs.1
  have hsame := h.read
  rw [hread] at hsame
  simp only [Except.ok.injEq, Prod.mk.injEq, ReadResult.mk.injEq] at hsame
  obtain ⟨⟨_, rfl⟩, rfl⟩ := hsame
  exact ⟨rfl, hs'⟩

/-- On a dry source the loop returns when the end comes or the sink refuses. -/
theorem Reads.dry (h : Reads src out body source sink need inv) (hsrc : Drains src rank) {n : Nat}
    {s : σ} {t : τ} (hcomes : Comes src out n s t) {c : γ} (hc : inv c) (hs : source c = s)
    (ht : sink c = t) (hn : need c = n) (hdry : rank s = 0) : Returns body c := by
  induction hcomes generalizing c with
  | ended last =>
    subst hs
    rcases h c hc with ⟨r, hleave⟩ | ⟨c', data, r, _, hreading⟩
    · exact returns_leave hleave
    · have hmore := hreading.more
      rw [last] at hmore
      cases hmore
  | refused refuses =>
    subst hs ht
    rcases h c hc with ⟨r, hleave⟩ | ⟨c', data, r, _, hreading⟩
    · exact returns_leave hleave
    · obtain ⟨rfl, _⟩ := hreading.nothing hsrc hdry
      have hwrite := hreading.write
      rw [refuses] at hwrite
      cases hwrite
      exact absurd rfl hreading.took
  | later read write rest ih =>
    subst hs ht hn
    rcases h c hc with ⟨r, hleave⟩ | ⟨c', data, r, hc', hreading⟩
    · exact returns_leave hleave
    · obtain ⟨rfl, hdry'⟩ := hreading.nothing hsrc hdry
      have hread := hreading.read
      have hwrite := hreading.write
      rw [read] at hread
      rw [write] at hwrite
      simp only [Except.ok.injEq, Prod.mk.injEq] at hread hwrite
      obtain ⟨_, rfl⟩ := hread
      obtain ⟨_, rfl⟩ := hwrite
      exact returns_again hreading.pass (ih hc' rfl rfl (hreading.same rfl) hdry')

/-- A loop that copies returns when it does so on a source that is dry. -/
theorem Reads.returns (h : Reads src out body source sink need inv) (hsrc : Drains src rank)
    (hcomes : ∀ s t n, rank s = 0 → 0 < n → n ≤ bufferSize → Comes src out n s t) {c : γ}
    (hc : inv c) : Returns body c := by
  obtain ⟨k, hk⟩ : ∃ k, rank (source c) ≤ k := ⟨_, Nat.le_refl _⟩
  induction k generalizing c with
  | zero =>
    have hdry : rank (source c) = 0 := Nat.le_zero.mp hk
    rcases h c hc with ⟨r, hleave⟩ | ⟨c', data, r, _, hreading⟩
    · exact returns_leave hleave
    · have hneeds := hreading.needs
      exact h.dry hsrc (hcomes _ _ _ hdry hneeds.1 hneeds.2) hc rfl rfl rfl hdry
  | succ k ih =>
    rcases h c hc with ⟨r, hleave⟩ | ⟨c', data, r, hc', hreading⟩
    · exact returns_leave hleave
    · refine returns_again hreading.pass (ih hc' ?_)
      by_cases hdry : rank (source c) = 0
      · rw [(hreading.nothing hsrc hdry).2]
        exact Nat.zero_le _
      · have hread := hreading.read
        rcases hsrc.flowing (source c) (need c) (Nat.pos_of_ne_zero hdry) hreading.needs.1 with
          ⟨bytes, s', hfail, _⟩ | ⟨bytes, s', hflow, _, hless⟩
        · rw [hfail] at hread
          simp only [Except.ok.injEq, Prod.mk.injEq, ReadResult.mk.injEq] at hread
          omega
        · rw [hflow] at hread
          simp only [Except.ok.injEq, Prod.mk.injEq] at hread
          rw [← hread.2]
          omega

/-- The invariant holds wherever passes lead. -/
theorem Reads.passes (h : Reads src out body source sink need inv) {c c' : γ}
    (hp : Passes body c c') (hc : inv c) : inv c' := by
  refine hp.invariant ?_ hc
  intro c c' hc hpass
  rcases h c hc with ⟨r, hleave⟩ | ⟨c'', data, r, hc'', hreading⟩
  · rw [hpass] at hleave
    cases hleave
  · have hsame := hreading.pass
    rw [hpass] at hsame
    cases hsame
    exact hc''

end

section
variable {σ τ π : Type} {src : InStream σ} {out : OutStream τ} {rank : σ → Nat}

/-- A read fails or goes through the buffer. -/
theorem drains_through (hsrc : Drains src rank) (s : σ) {n : Nat} (hn : 0 < n)
    (hsmall : n ≤ bufferSize) {buffer : List Byte} (hb : buffer.length = bufferSize) :
    (∃ data s' buffer', src.read s n = .ok (⟨-1, data⟩, s') ∧
      store buffer 0 data = .ok buffer') ∨
    ∃ data s' buffer', src.read s n = .ok (⟨data.length, data⟩, s') ∧ data.length ≤ n ∧
      store buffer 0 data = .ok buffer' ∧ buffer'.length = bufferSize ∧
      load buffer' 0 (toWord data.length) = .ok data := by
  by_cases hdry : rank s = 0
  · obtain ⟨s', hread, _⟩ := hsrc.dry s n hdry hn
    have hnone : ([] : List Byte).length ≤ bufferSize := Nat.zero_le _
    obtain ⟨buffer', hstore, hlength, hload⟩ := through_buffer hb hnone
    exact Or.inr ⟨[], s', buffer', hread, Nat.zero_le _, hstore, hlength, hload⟩
  · rcases hsrc.flowing s n (Nat.pos_of_ne_zero hdry) hn with
      ⟨data, s', hread, hlen⟩ | ⟨data, s', hread, hlen, _⟩
    · obtain ⟨buffer', hstore, _, _⟩ := through_buffer hb (Nat.le_trans hlen hsmall)
      exact Or.inl ⟨data, s', buffer', hread, hstore⟩
    · obtain ⟨buffer', hstore, hlength, hload⟩ := through_buffer hb (Nat.le_trans hlen hsmall)
      exact Or.inr ⟨data, s', buffer', hread, hlen, hstore, hlength, hload⟩

theorem buffer_fits : 0 < bufferSize ∧ bufferSize ≤ bufferSize := by decide

theorem copy_reads (hsrc : Drains src rank) (hout : Counts out) (progresser : Progresser π) :
    Reads src out (copyPass src out progresser) Copying.source Copying.sink (fun _ => bufferSize)
      fun c => c.buffer.length = bufferSize := by
  intro c hb
  by_cases hend : src.end c.source = true
  · left
    rw [copyPass, if_pos hend]
    exact ⟨_, rfl⟩
  · rcases hcancelled : progresser.cancelled c.progress with ⟨_ | _, p⟩
    · rcases drains_through hsrc c.source buffer_fits.1 buffer_fits.2 hb with
        ⟨data, s', buffer', hread, hstore⟩ | ⟨data, s', buffer', hread, _, hstore, hlength, hload⟩
      · left
        rw [copyPass, if_neg hend, hcancelled]
        simp only [Bool.false_eq_true, if_false, hread, ok_bind, hstore, if_true]
        exact ⟨_, rfl⟩
      · have hret : ¬ (data.length : Int) = -1 := by omega
        obtain ⟨r, t', hwrite, _⟩ := hout c.sink data
        have hpass : copyPass src out progresser c = if r = -1 then .ok (.leave ⟨false, s', t', p⟩)
            else .ok (.again ⟨s', t', progresser.update p r, buffer'⟩) := by
          rw [copyPass, if_neg hend, hcancelled]
          simp only [Bool.false_eq_true, if_false, hread, ok_bind, hstore, hret, hload, hwrite]
          rfl
        by_cases hfail : r = -1
        · rw [if_pos hfail] at hpass
          exact Or.inl ⟨_, hpass⟩
        · rw [if_neg hfail] at hpass
          exact Or.inr ⟨_, data, r, hlength, hpass, Bool.eq_false_iff.mpr hend, buffer_fits, hread,
            hwrite, hfail, fun _ => rfl⟩
    · left
      rw [copyPass, if_neg hend, hcancelled]
      exact ⟨_, rfl⟩

theorem track_reads (hsrc : Drains src rank) (hout : Counts out) (progress : Progress π)
    (total : Int) :
    Reads src out (trackPass src out progress total) Tracking.source Tracking.sink
      (fun _ => bufferSize) fun c => c.buffer.length = bufferSize := by
  intro c hb
  by_cases hend : src.end c.source = true
  · left
    rw [trackPass, if_pos hend]
    exact ⟨_, rfl⟩
  · rcases hcancelled : progress.cancelled c.progress with ⟨_ | _, p⟩
    · rcases drains_through hsrc c.source buffer_fits.1 buffer_fits.2 hb with
        ⟨data, s', buffer', hread, hstore⟩ | ⟨data, s', buffer', hread, _, hstore, hlength, hload⟩
      · left
        rw [trackPass, if_neg hend, hcancelled]
        simp only [Bool.false_eq_true, if_false, hread, ok_bind, hstore, if_true]
        exact ⟨_, rfl⟩
      · have hret : ¬ (data.length : Int) = -1 := by omega
        obtain ⟨r, t', hwrite, _⟩ := hout c.sink data
        by_cases hfail : r = -1
        · left
          rw [trackPass, if_neg hend, hcancelled]
          simp only [Bool.false_eq_true, if_false, hread, ok_bind, hstore, hret, hload, hwrite,
            hfail, if_true]
          exact ⟨_, rfl⟩
        · have hreading : ∀ c' : Tracking σ τ π, c'.source = s' → c'.sink = t' →
              trackPass src out progress total c = .ok (.again c') →
              Reading src out (trackPass src out progress total) Tracking.source Tracking.sink
                (fun _ => bufferSize) c c' data r := by
            rintro c' rfl rfl hpass
            exact ⟨hpass, Bool.eq_false_iff.mpr hend, buffer_fits, hread, hwrite, hfail,
              fun _ => rfl⟩
          by_cases hknown : total = -1
          · have hpass : trackPass src out progress total c =
                .ok (.again ⟨s', t', p, buffer', c.written⟩) := by
              rw [trackPass, if_neg hend, hcancelled]
              simp only [Bool.false_eq_true, if_false, hread, ok_bind, hstore, hret, hload, hwrite,
                hfail, hknown, ne_eq, not_true_eq_false]
              rfl
            exact Or.inr ⟨_, data, r, hlength, hreading _ rfl rfl hpass⟩
          · cases hpercent : percent (toLong (c.written + r)) total with
            | none =>
              left
              rw [trackPass, if_neg hend, hcancelled]
              simp only [Bool.false_eq_true, if_false, hread, ok_bind, hstore, hret, hload, hwrite,
                hfail, hknown, ne_eq, not_false_eq_true, if_true, hpercent]
              exact ⟨_, rfl⟩
            | some given =>
              have hpass : trackPass src out progress total c = .ok (.again
                  ⟨s', t', progress.setProgress p given, buffer', toLong (c.written + r)⟩) := by
                rw [trackPass, if_neg hend, hcancelled]
                simp only [Bool.false_eq_true, if_false, hread, ok_bind, hstore, hret, hload,
                  hwrite, hfail, hknown, ne_eq, not_false_eq_true, if_true, hpercent]
                rfl
              exact Or.inr ⟨_, data, r, hlength, hreading _ rfl rfl hpass⟩
    · left
      rw [trackPass, if_neg hend, hcancelled]
      exact ⟨_, rfl⟩

/-- The buffer is whole, and the size a tuint64. -/
structure Whole (c : Sending σ τ π) : Prop where
  buffer : c.buffer.length = bufferSize
  size : c.size < longWord

theorem amount_fits {size : Nat} (h : 0 < size) :
    0 < amount size ∧ amount size ≤ bufferSize ∧ amount size ≤ size := by
  have hb := buffer_fits
  rw [amount_eq]
  omega

/-- A pass that was not cancelled and whose read did not fail. -/
theorem send_pass {progresser : Progresser π} {c : Sending σ τ π} {p : π} {data : List Byte}
    {buffer' : List Byte} {s' : σ} {t' : τ} {r : Int}
    (hmore : src.end c.source = false ∧ 0 < c.size)
    (hcancelled : progresser.cancelled c.progress = (false, p))
    (hread : src.read c.source (amount c.size) = .ok (⟨data.length, data⟩, s'))
    (hstore : store c.buffer 0 data = .ok buffer')
    (hload : load buffer' 0 (toWord data.length) = .ok data)
    (hwrite : out.write c.sink data = .ok (r, t')) :
    sendPass src out progresser c = if r = -1 then .ok (.leave (.inl ⟨false, s', t', p⟩))
      else .ok (.again ⟨s', t', progresser.update p r, buffer', subLong c.size r, r⟩) := by
  have hret : ¬ (data.length : Int) = -1 := by omega
  rw [sendPass, if_pos hmore, hcancelled]
  simp only [Bool.false_eq_true, if_false, hread, ok_bind, hstore, hret, hload, hwrite]
  rfl

theorem send_reads (hsrc : Drains src rank) (hout : Counts out) (progresser : Progresser π) :
    Reads src out (sendPass src out progresser) Sending.source Sending.sink
      (fun c => amount c.size) Whole := by
  intro c hc
  by_cases hmore : src.end c.source = false ∧ 0 < c.size
  · obtain ⟨hpos, hsmall, hle⟩ := amount_fits hmore.2
    rcases hcancelled : progresser.cancelled c.progress with ⟨_ | _, p⟩
    · rcases drains_through hsrc c.source hpos hsmall hc.buffer with
        ⟨data, s', buffer', hread, hstore⟩ |
        ⟨data, s', buffer', hread, hlen, hstore, hlength, hload⟩
      · left
        rw [sendPass, if_pos hmore, hcancelled]
        simp only [Bool.false_eq_true, if_false, hread, ok_bind, hstore, if_true]
        exact ⟨_, rfl⟩
      · obtain ⟨r, t', hwrite, hr⟩ := hout c.sink data
        have hpass := send_pass hmore hcancelled hread hstore hload hwrite
        by_cases hfail : r = -1
        · rw [if_pos hfail] at hpass
          exact Or.inl ⟨_, hpass⟩
        · rw [if_neg hfail] at hpass
          obtain ⟨k, rfl⟩ : ∃ k : Nat, r = k := ⟨r.toNat, by omega⟩
          have hsub : subLong c.size k = c.size - k := subLong_eq hc.size (by omega)
          have hsize := hc.size
          refine Or.inr ⟨_, data, k, ⟨hlength, ?_⟩, hpass, hmore.1, ⟨hpos, hsmall⟩, hread, hwrite,
            hfail, ?_⟩
          · dsimp only
            omega
          · rintro rfl
            have hzero : k = 0 := by
              rw [List.length_nil] at hr
              omega
            dsimp only
            rw [hsub, hzero, Nat.sub_zero]
    · left
      rw [sendPass, if_pos hmore, hcancelled]
      exact ⟨_, rfl⟩
  · left
    rw [sendPass, if_neg hmore]
    exact ⟨_, rfl⟩

/-- A write that does not take everything throws. -/
theorem canex_writes (hout : Counts out) (ident : String) (t : τ) (data : List Byte) :
    (∃ e t', (CanexOutStream.mk out ident).write t data = .ok (some e, t')) ∨
    ∃ t', out.write t data = .ok (data.length, t') ∧
      (CanexOutStream.mk out ident).write t data = .ok (none, t') := by
  obtain ⟨r, t', hwrite, _⟩ := hout t data
  by_cases hall : r = data.length
  · subst hall
    exact Or.inr ⟨t', hwrite, CanexOutStream.write_returns ident hwrite⟩
  · left
    unfold CanexOutStream.write
    simp only [hwrite, ok_bind, hall, ne_eq, not_false_eq_true, or_true, if_true]
    exact ⟨_, _, rfl⟩

theorem canex_reads (hsrc : Drains src rank) (hout : Counts out) (progresser : Progresser π)
    (ident ident' : String) :
    Reads src out (Canexstream.copyPass ⟨src, ident⟩ ⟨out, ident'⟩ progresser) Copying.source
      Copying.sink (fun _ => bufferSize) fun c => c.buffer.length = bufferSize := by
  intro c hb
  by_cases hend : src.end c.source = true
  · left
    rw [Canexstream.copyPass, if_pos hend]
    exact ⟨_, rfl⟩
  · rcases hcancelled : progresser.cancelled c.progress with ⟨_ | _, p⟩
    · rcases drains_through hsrc c.source buffer_fits.1 buffer_fits.2 hb with
        ⟨data, s', buffer', hread, hstore⟩ | ⟨data, s', buffer', hread, _, hstore, hlength, hload⟩
      · left
        obtain ⟨e, hthrows⟩ := CanexInStream.read_throws ident hread
        rw [Canexstream.copyPass, if_neg hend, hcancelled]
        simp only [Bool.false_eq_true, if_false, hthrows, ok_bind, hstore, Option.isSome_some,
          if_true]
        exact ⟨_, rfl⟩
      · have hreturns := CanexInStream.read_returns ident hread
        have hret : ¬ (data.length : Int) = -1 := by omega
        rcases canex_writes hout ident' c.sink data with ⟨e, t', hthrows⟩ | ⟨t', hwrite, htakes⟩
        · left
          rw [Canexstream.copyPass, if_neg hend, hcancelled]
          simp only [Bool.false_eq_true, if_false, hreturns, ok_bind, hstore, Option.isSome_none,
            hload, hthrows, Option.isSome_some, if_true]
          exact ⟨_, rfl⟩
        · have hpass : Canexstream.copyPass ⟨src, ident⟩ ⟨out, ident'⟩ progresser c =
              .ok (.again ⟨s', t', progresser.update p data.length, buffer'⟩) := by
            rw [Canexstream.copyPass, if_neg hend, hcancelled]
            simp only [Bool.false_eq_true, if_false, hreturns, ok_bind, hstore, Option.isSome_none,
              hload, htakes]
            rfl
          exact Or.inr ⟨_, data, data.length, hlength, hpass, Bool.eq_false_iff.mpr hend,
            buffer_fits, hread, hwrite, hret, fun _ => rfl⟩
    · left
      rw [Canexstream.copyPass, if_neg hend, hcancelled]
      exact ⟨_, rfl⟩

theorem canex_send_reads (hsrc : Drains src rank) (hout : Counts out) (progresser : Progresser π)
    (ident ident' : String) :
    Reads src out (Canexstream.sendPass ⟨src, ident⟩ ⟨out, ident'⟩ progresser) Sending.source
      Sending.sink (fun c => amount c.size) Whole := by
  intro c hc
  by_cases hmore : src.end c.source = false ∧ 0 < c.size
  · obtain ⟨hpos, hsmall, hle⟩ := amount_fits hmore.2
    rcases hcancelled : progresser.cancelled c.progress with ⟨_ | _, p⟩
    · rcases drains_through hsrc c.source hpos hsmall hc.buffer with
        ⟨data, s', buffer', hread, hstore⟩ |
        ⟨data, s', buffer', hread, hlen, hstore, hlength, hload⟩
      · left
        obtain ⟨e, hthrows⟩ := CanexInStream.read_throws ident hread
        rw [Canexstream.sendPass, if_pos hmore, hcancelled]
        simp only [Bool.false_eq_true, if_false, hthrows, ok_bind, hstore, Option.isSome_some,
          if_true]
        exact ⟨_, rfl⟩
      · have hreturns := CanexInStream.read_returns ident hread
        have hret : ¬ (data.length : Int) = -1 := by omega
        rcases canex_writes hout ident' c.sink data with ⟨e, t', hthrows⟩ | ⟨t', hwrite, htakes⟩
        · left
          rw [Canexstream.sendPass, if_pos hmore, hcancelled]
          simp only [Bool.false_eq_true, if_false, hreturns, ok_bind, hstore, Option.isSome_none,
            hload, hthrows, Option.isSome_some, if_true]
          exact ⟨_, rfl⟩
        · have hpass : Canexstream.sendPass ⟨src, ident⟩ ⟨out, ident'⟩ progresser c =
              .ok (.again ⟨s', t', progresser.update p data.length, buffer',
                subLong c.size data.length, data.length⟩) := by
            rw [Canexstream.sendPass, if_pos hmore, hcancelled]
            simp only [Bool.false_eq_true, if_false, hreturns, ok_bind, hstore, Option.isSome_none,
              hload, htakes]
            rfl
          have hsub : subLong c.size data.length = c.size - data.length :=
            subLong_eq hc.size (by omega)
          have hsize := hc.size
          refine Or.inr ⟨_, data, data.length, ⟨hlength, ?_⟩, hpass, hmore.1, ⟨hpos, hsmall⟩, hread,
            hwrite, hret, ?_⟩
          · dsimp only
            omega
          · rintro rfl
            dsimp only
            rw [hsub]
            rfl
    · left
      rw [Canexstream.sendPass, if_pos hmore, hcancelled]
      exact ⟨_, rfl⟩
  · left
    rw [Canexstream.sendPass, if_neg hmore]
    exact ⟨_, rfl⟩

/-- The loop is over at the end of the source, or when the size has been sent. -/
theorem send_over {progresser : Progresser π} {c c' : Sending σ τ π}
    (h : sendPass src out progresser c = .ok (.leave (.inr c'))) :
    c' = c ∧ ¬ (src.end c.source = false ∧ 0 < c.size) := by
  by_cases hmore : src.end c.source = false ∧ 0 < c.size
  · exfalso
    rw [sendPass, if_pos hmore] at h
    rcases hcancelled : progresser.cancelled c.progress with ⟨_ | _, p⟩
    · simp only [hcancelled, Bool.false_eq_true, if_false] at h
      obtain ⟨⟨res, s'⟩, _, h⟩ := bind_ok h
      obtain ⟨buffer', _, h⟩ := bind_ok h
      dsimp only at h
      split at h
      · cases h
      · obtain ⟨data, _, h⟩ := bind_ok h
        obtain ⟨⟨r, t'⟩, _, h⟩ := bind_ok h
        dsimp only at h
        split at h
        · cases h
        · cases h
    · simp only [hcancelled, if_true] at h
      cases h
  · rw [sendPass, if_neg hmore] at h
    cases h
    exact ⟨rfl, hmore⟩

theorem canex_send_over {progresser : Progresser π} {ident ident' : String}
    {c c' : Sending σ τ π}
    (h : Canexstream.sendPass ⟨src, ident⟩ ⟨out, ident'⟩ progresser c = .ok (.leave (.inr c'))) :
    c' = c := by
  by_cases hmore : src.end c.source = false ∧ 0 < c.size
  · exfalso
    rw [Canexstream.sendPass, if_pos hmore] at h
    rcases hcancelled : progresser.cancelled c.progress with ⟨_ | _, p⟩
    · simp only [hcancelled, Bool.false_eq_true, if_false] at h
      obtain ⟨⟨thrown, res, s'⟩, _, h⟩ := bind_ok h
      obtain ⟨buffer', _, h⟩ := bind_ok h
      dsimp only at h
      split at h
      · cases h
      · obtain ⟨data, _, h⟩ := bind_ok h
        obtain ⟨⟨thrown', t'⟩, _, h⟩ := bind_ok h
        dsimp only at h
        split at h
        · cases h
        · cases h
    · simp only [hcancelled, if_true] at h
      cases h
  · rw [Canexstream.sendPass, if_neg hmore] at h
    cases h
    rfl

/-- One write of the padding. -/
theorem pad_pass (hout : Counts out) (progresser : Progresser π) {c : Sending σ τ π}
    (hc : Whole c) (hpos : 0 < c.size) :
    ∃ r t', out.write c.sink (List.replicate (amount c.size) 0) = .ok (r, t') ∧
      (r = -1 ∨ 0 ≤ r ∧ r ≤ amount c.size) ∧
      padPass out progresser c = if r = -1 then .ok (.leave ⟨false, c.source, t', c.progress⟩)
        else .ok (.again ⟨c.source, t', progresser.update c.progress r,
          List.replicate bufferSize 0, subLong c.size r, r⟩) := by
  obtain ⟨_, hsmall, _⟩ := amount_fits hpos
  obtain ⟨hstore, hload⟩ := buffer_zeros hc.buffer hsmall
  obtain ⟨r, t', hwrite, hr⟩ := hout c.sink (List.replicate (amount c.size) 0)
  rw [List.length_replicate] at hr
  refine ⟨r, t', hwrite, hr, ?_⟩
  rw [padPass, if_pos hpos]
  simp only [hstore, ok_bind, hload, hwrite]
  rfl

/-- The padding ends on a sink that does not answer 0 for ever. -/
theorem pad_returns (hout : Counts out)
    (haccepts : ∀ t n, 0 < n → n ≤ bufferSize → Accepts out n t) (progresser : Progresser π)
    {c : Sending σ τ π} (hc : Whole c) : Returns (padPass out progresser) c := by
  obtain ⟨k, hk⟩ : ∃ k, c.size ≤ k := ⟨_, Nat.le_refl _⟩
  induction k generalizing c with
  | zero =>
    have hnone : ¬ 0 < c.size := by omega
    exact returns_leave (by rw [padPass, if_neg hnone])
  | succ k ih =>
    by_cases hpos : 0 < c.size
    · obtain ⟨hn, hsmall, hle⟩ := amount_fits hpos
      have hsink := haccepts c.sink (amount c.size) hn hsmall
      generalize hamount : amount c.size = n at hsink
      generalize ht : c.sink = t at hsink
      induction hsink generalizing c with
      | @moves t u r write some =>
        obtain ⟨r', t', hwrite, hr, hpass⟩ := pad_pass hout progresser hc hpos
        rw [ht, hamount, write] at hwrite
        obtain ⟨rfl, rfl⟩ : r = r' ∧ u = t' := by simpa using hwrite
        by_cases hfail : r = -1
        · rw [if_pos hfail] at hpass
          exact returns_leave hpass
        · rw [if_neg hfail] at hpass
          obtain ⟨j, rfl⟩ : ∃ j : Nat, r = j := ⟨r.toNat, by omega⟩
          have hsub : subLong c.size j = c.size - j := subLong_eq hc.size (by omega)
          have hsize := hc.size
          refine returns_again hpass (ih ⟨List.length_replicate, ?_⟩ ?_)
          · dsimp only
            omega
          · dsimp only
            omega
      | @again t u write rest ih' =>
        obtain ⟨r', t', hwrite, hr, hpass⟩ := pad_pass hout progresser hc hpos
        rw [ht, hamount, write] at hwrite
        obtain ⟨rfl, rfl⟩ : 0 = r' ∧ u = t' := by simpa using hwrite
        have hsub : subLong c.size (0 : Int) = c.size := subLong_eq hc.size (Nat.zero_le _)
        rw [if_neg (by decide), hsub] at hpass
        exact returns_again hpass
          (ih' ⟨List.length_replicate, hc.size⟩ hk hpos hn hsmall hle hamount rfl)
    · exact returns_leave (by rw [padPass, if_neg hpos])

/-- Here a write that does not take everything ends the copy. -/
theorem canex_pad_returns (hout : Counts out) (progresser : Progresser π) (ident : String)
    {c : Sending σ τ π} (hc : Whole c) :
    Returns (Canexstream.padPass ⟨out, ident⟩ progresser) c := by
  obtain ⟨k, hk⟩ : ∃ k, c.size ≤ k := ⟨_, Nat.le_refl _⟩
  induction k generalizing c with
  | zero =>
    have hnone : ¬ 0 < c.size := by omega
    exact returns_leave (by rw [Canexstream.padPass, if_neg hnone])
  | succ k ih =>
    by_cases hpos : 0 < c.size
    · obtain ⟨hn, hsmall, hle⟩ := amount_fits hpos
      obtain ⟨hstore, hload⟩ := buffer_zeros hc.buffer hsmall
      rcases canex_writes hout ident c.sink (List.replicate (amount c.size) 0) with
        ⟨e, t', hthrows⟩ | ⟨t', _, htakes⟩
      · have hpass : Canexstream.padPass ⟨out, ident⟩ progresser c =
            .ok (.leave ⟨some e, c.source, t', c.progress⟩) := by
          rw [Canexstream.padPass, if_pos hpos]
          simp only [hstore, ok_bind, hload, hthrows, Option.isSome_some, if_true]
          rfl
        exact returns_leave hpass
      · have hpass : Canexstream.padPass ⟨out, ident⟩ progresser c =
            .ok (.again ⟨c.source, t', progresser.update c.progress c.res,
              List.replicate bufferSize 0, subLong c.size (amount c.size), c.res⟩) := by
          rw [Canexstream.padPass, if_pos hpos]
          simp only [hstore, ok_bind, hload, htakes, Option.isSome_none, Bool.false_eq_true,
            if_false]
          rfl
        have hsub : subLong c.size (amount c.size) = c.size - amount c.size :=
          subLong_eq hc.size hle
        have hsize := hc.size
        refine returns_again hpass (ih ⟨List.length_replicate, ?_⟩ ?_)
        · dsimp only
          omega
        · dsimp only
          omega
    · exact returns_leave (by rw [Canexstream.padPass, if_neg hpos])

theorem start_whole {size : Nat} (hsize : size < longWord) (s : σ) (t : τ) (p : π) :
    Whole (.start s t p size) := ⟨List.length_replicate, hsize⟩

/-- The copy of a given size sends and then pads, which it only does behind the
end of the source. -/
theorem sized_returns (hsrc : Drains src rank) (hout : Counts out)
    (hcomes : ∀ s t n, rank s = 0 → 0 < n → n ≤ bufferSize → Comes src out n s t)
    (haccepts : (∃ s, src.end s = true) → ∀ t n, 0 < n → n ≤ bufferSize → Accepts out n t)
    (progresser : Progresser π) (s : σ) (t : τ) (p : π) {size : Nat} (hsize : size < longWord) :
    ∃ fuel r, copySized src out progresser fuel s t p size = .ok r := by
  have hreads := send_reads hsrc hout progresser
  have hstart := start_whole hsize s t p
  obtain ⟨fuel, r, hloop⟩ := hreads.returns hsrc hcomes hstart
  cases r with
  | inl copied => exact ⟨fuel, copied, by rw [copySized, hloop]; rfl⟩
  | inr c =>
    obtain ⟨m, hp, hlast⟩ := loop_passes hloop
    obtain ⟨rfl, hover⟩ := send_over hlast
    have hc := hreads.passes hp hstart
    have hpad : Returns (padPass out progresser) c := by
      by_cases hpos : 0 < c.size
      · have hend : src.end c.source = true := by
          cases hval : src.end c.source with
          | true => rfl
          | false => exact absurd ⟨hval, hpos⟩ hover
        exact pad_returns hout (haccepts ⟨_, hend⟩) progresser hc
      · exact returns_leave (by rw [padPass, if_neg hpos])
    obtain ⟨fuel', r, hpadded⟩ := hpad
    refine ⟨max fuel fuel', r, ?_⟩
    rw [copySized, loop_mono hloop (Nat.le_max_left _ _), ok_bind]
    exact loop_mono hpadded (Nat.le_max_right _ _)

theorem canex_sized_returns (hsrc : Drains src rank) (hout : Counts out)
    (hcomes : ∀ s t n, rank s = 0 → 0 < n → n ≤ bufferSize → Comes src out n s t)
    (progresser : Progresser π) (ident ident' : String) (s : σ) (t : τ) (p : π) {size : Nat}
    (hsize : size < longWord) :
    ∃ fuel r, Canexstream.copySized ⟨src, ident⟩ ⟨out, ident'⟩ progresser fuel s t p size =
      .ok r := by
  have hreads := canex_send_reads hsrc hout progresser ident ident'
  have hstart := start_whole hsize s t p
  obtain ⟨fuel, r, hloop⟩ := hreads.returns hsrc hcomes hstart
  cases r with
  | inl canexed => exact ⟨fuel, canexed, by rw [Canexstream.copySized, hloop]; rfl⟩
  | inr c =>
    obtain ⟨m, hp, hlast⟩ := loop_passes hloop
    cases canex_send_over hlast
    obtain ⟨fuel', r, hpadded⟩ :=
      canex_pad_returns hout progresser ident' (hreads.passes hp hstart)
    refine ⟨max fuel fuel', r, ?_⟩
    rw [Canexstream.copySized, loop_mono hloop (Nat.le_max_left _ _), ok_bind]
    exact loop_mono hpadded (Nat.le_max_right _ _)

theorem progress_returns (hsrc : Drains src rank) (hout : Counts out)
    (hcomes : ∀ s t n, rank s = 0 → 0 < n → n ≤ bufferSize → Comes src out n s t)
    (progress : Progress π) (s : σ) (t : τ) (p : π) :
    ∃ fuel r, copyProgress src out progress fuel s t p = .ok r := by
  have hb : (Tracking.start s t (progress.setMarquee p (src.size s = -1))).buffer.length =
      bufferSize := List.length_replicate
  obtain ⟨fuel, r, hloop⟩ :=
    (track_reads hsrc hout progress (src.size s)).returns hsrc hcomes hb
  refine ⟨fuel, ?_⟩
  simp only [copyProgress, hloop, ok_bind]
  cases r with
  | none => exact ⟨none, rfl⟩
  | some copied =>
    dsimp only
    split
    · exact ⟨_, rfl⟩
    · exact ⟨_, rfl⟩

/-- A copy of a dry source that returned came to its end or to a failed write. -/
theorem comes_of_loop (hsrc : Drains src rank) (hout : Counts out) {fuel : Nat}
    {c : Sending σ τ Unit} (hc : Whole c) (hpos : 0 < c.size) (hdry : rank c.source = 0)
    {r : Copied σ τ Unit ⊕ Sending σ τ Unit}
    (h : loop (sendPass src out Progresser.none) fuel c = .ok r) :
    Comes src out (amount c.size) c.source c.sink := by
  induction fuel generalizing c with
  | zero => cases h
  | succ fuel ih =>
    by_cases hend : src.end c.source = true
    · exact .ended hend
    · obtain ⟨hn, _, _⟩ := amount_fits hpos
      obtain ⟨s', hread, hdry'⟩ := hsrc.dry c.source (amount c.size) hdry hn
      have hnone : ([] : List Byte).length ≤ bufferSize := Nat.zero_le _
      obtain ⟨buffer', hstore, hlength, hload⟩ := through_buffer hc.buffer hnone
      obtain ⟨r', t', hwrite, hr⟩ := hout c.sink []
      have hread' : src.read c.source (amount c.size) =
          .ok (⟨([] : List Byte).length, []⟩, s') := hread
      have hgo : Progresser.none.cancelled c.progress = (false, c.progress) := rfl
      have hpass := send_pass ⟨Bool.eq_false_iff.mpr hend, hpos⟩ hgo hread' hstore hload hwrite
      by_cases hfail : r' = -1
      · subst hfail
        exact .refused hwrite
      · have hzero : r' = 0 := by
          rw [List.length_nil] at hr
          omega
        subst hzero
        have hsub : subLong c.size (0 : Int) = c.size := subLong_eq hc.size (Nat.zero_le _)
        rw [if_neg hfail, hsub] at hpass
        rw [loop_again hpass] at h
        refine .later hread hwrite (ih ?_ ?_ ?_ h)
        · exact ⟨hlength, hc.size⟩
        · exact hpos
        · exact hdry'

/-- Padding that returned was taken, or refused, at some time. -/
theorem accepts_of_loop (hout : Counts out) {progresser : Progresser π} {fuel : Nat}
    {c : Sending σ τ π} (hc : Whole c) (hpos : 0 < c.size) {r : Copied σ τ π}
    (h : loop (padPass out progresser) fuel c = .ok r) : Accepts out (amount c.size) c.sink := by
  induction fuel generalizing c with
  | zero => cases h
  | succ fuel ih =>
    obtain ⟨r', t', hwrite, _, hpass⟩ := pad_pass hout progresser hc hpos
    by_cases hsome : r' = 0
    · subst hsome
      have hsub : subLong c.size (0 : Int) = c.size := subLong_eq hc.size (Nat.zero_le _)
      rw [if_neg (by decide), hsub] at hpass
      rw [loop_again hpass] at h
      refine .again hwrite (ih ?_ ?_ h)
      · exact ⟨List.length_replicate, hc.size⟩
      · exact hpos
    · exact .moves hwrite hsome

end

section
variable {σ τ : Type} {src : InStream σ} {out : OutStream τ} {rank : σ → Nat}

/-- All copies from a source that runs dry return just when reading on from it
there brings its end to be true, or a write to fail, and a sink that may have to
take padding does not answer 0 for ever. -/
theorem copies_return_iff (hsrc : Drains src rank) (hout : Counts out) :
    CopiesReturn src out ↔
      (∀ s t n, rank s = 0 → 0 < n → n ≤ bufferSize → Comes src out n s t) ∧
      ((∃ s, src.end s = true) → ∀ t n, 0 < n → n ≤ bufferSize → Accepts out n t) := by
  have hsmall : ∀ n, n ≤ bufferSize → n < longWord ∧ amount n = n := by
    intro n hn
    have hword : bufferSize < longWord := by decide
    rw [amount_eq]
    omega
  constructor
  · intro h
    constructor
    · intro s t n hdry hpos hn
      obtain ⟨hsize, hamount⟩ := hsmall n hn
      obtain ⟨fuel, r, hsized⟩ := h.sized Unit Progresser.none s t () n hsize
      obtain ⟨res, hloop, _⟩ := bind_ok hsized
      have hcomes := comes_of_loop hsrc hout (start_whole hsize s t ()) hpos hdry hloop
      rw [← hamount]
      exact hcomes
    · rintro ⟨s, hend⟩ t n hpos hn
      obtain ⟨hsize, hamount⟩ := hsmall n hn
      obtain ⟨fuel, r, hsized⟩ := h.sized Unit Progresser.none s t () n hsize
      obtain ⟨res, hloop, hpadded⟩ := bind_ok hsized
      have hstart := start_whole hsize s t ()
      have hpass : sendPass src out Progresser.none (.start s t () n) =
          .ok (.leave (.inr (.start s t () n))) := by
        have hover : ¬ (src.end s = false ∧ 0 < n) := by simp [hend]
        exact if_neg hover
      obtain ⟨m, rfl, _⟩ := loop_ok hloop
      rw [loop_leave hpass] at hloop
      cases hloop
      have hsink := accepts_of_loop hout hstart hpos hpadded
      rw [← hamount]
      exact hsink
  · rintro ⟨hcomes, haccepts⟩
    have hb : (List.replicate bufferSize (0 : Byte)).length = bufferSize := List.length_replicate
    refine ⟨?_, ?_, ?_, ?_, ?_, ?_⟩
    · intro s t
      exact (copy_reads hsrc hout Progresser.none).returns hsrc hcomes hb
    · intro π progress s t p
      exact progress_returns hsrc hout hcomes progress s t p
    · intro π progresser s t p
      exact (copy_reads hsrc hout progresser).returns hsrc hcomes hb
    · intro π progresser s t p size hsize
      exact sized_returns hsrc hout hcomes haccepts progresser s t p hsize
    · intro π progresser ident ident' s t p
      exact (canex_reads hsrc hout progresser ident ident').returns hsrc hcomes hb
    · intro π progresser ident ident' s t p size hsize
      exact canex_sized_returns hsrc hout hcomes progresser ident ident' s t p hsize

end

/-- A source that delivers all that is asked for is dry when it has done so. -/
theorem exact_drains {σ : Type} {src : InStream σ} {content : List Byte} {pos : σ → Nat}
    (h : Exact src content pos) : Drains src fun s => content.length - pos s := by
  constructor
  · intro s n hs hn
    obtain ⟨s', hread, hrest⟩ := h.read s n
    have hlen := congrArg List.length hrest
    simp only [List.length_drop] at hlen
    exact Or.inr ⟨_, s', hread, List.length_take_le n _, by omega⟩
  · intro s n hs hn
    obtain ⟨s', hread, hrest⟩ := h.read s n
    have hlen := congrArg List.length hrest
    simp only [List.length_drop] at hlen
    rw [List.drop_eq_nil_of_le (by omega), List.take_nil] at hread
    exact ⟨s', hread, by omega⟩

/-- Where the source says so at its end, and the sink takes everything. -/
theorem copies_return_three : CopiesReturn (pieces [1, 2, 3] 3) collector := by
  have hexact := pieces_exact [1, 2, 3]
  refine (copies_return_iff (exact_drains hexact) collector_accepts.counts).mpr ⟨?_, ?_⟩
  · intro s t n hdry _ _
    have hbound := hexact.bounded s
    exact .ended ((hexact.ended s).mpr (by omega))
  · rintro - t n hpos -
    have hsome : ((List.replicate n (0 : Byte)).length : Int) ≠ 0 := by
      rw [List.length_replicate]
      omega
    exact .moves rfl hsome

/-- What a file stream still has in front of the end of its file. -/
def left (content : List Byte) (s : FileInStream) : Nat :=
  match s.file.fileHandle with
  | none => 1
  | some off => content.length - off

/-- A read of an open file delivers what the file has left, up to the count. -/
theorem file_read (content : List Byte) (bytes off : Nat) (size read : Int) (n : Nat) :
    (FileInStream.inStream content).read ⟨⟨bytes, some off⟩, size, read⟩ n =
      .ok (⟨((content.drop off).take n).length, (content.drop off).take n⟩,
        ⟨⟨bytes, some (off + ((content.drop off).take n).length)⟩, size,
          read + ((content.drop off).take n).length⟩) := by
  have hret : ¬ (((content.drop off).take n).length : Int) = -1 := by omega
  simp only [FileInStream.inStream, FileInStream.read, File.read, Option.getD_some, hret, if_false]

theorem file_drains (content : List Byte) :
    Drains (FileInStream.inStream content) (left content) := by
  constructor
  · rintro ⟨⟨bytes, _ | off⟩, size, read⟩ n hs hn
    · exact Or.inl ⟨[], _, rfl, Nat.zero_le _⟩
    · right
      have hlen : ((content.drop off).take n).length = min n (content.length - off) := by
        rw [List.length_take, List.length_drop]
      unfold left at hs ⊢
      dsimp only at hs
      exact ⟨_, _, file_read content bytes off size read n, by omega, by dsimp only; omega⟩
  · rintro ⟨⟨bytes, _ | off⟩, size, read⟩ n hs hn
    · cases hs
    · unfold left at hs ⊢
      dsimp only at hs
      have hread := file_read content bytes off size read n
      rw [List.drop_eq_nil_of_le (by omega), List.take_nil] at hread
      exact ⟨_, hread, hs⟩

/-- A stream opened on a file of five bytes that has been emptied since. -/
theorem emptied_file_never_ends : ∃ s : FileInStream,
    s = ((FileInStream.create 5 true).open ⟨true, true, true, true, true⟩).2 ∧
    Drains (FileInStream.inStream []) (left []) ∧ Counts collector ∧
    (∀ fuel, Copy.copy (FileInStream.inStream []) collector fuel s [] = .error .outOfFuel) ∧
    ¬ CopiesReturn (FileInStream.inStream []) collector := by
  have hloops : ∀ fuel, Copy.copy (FileInStream.inStream []) collector fuel
      ⟨⟨5, some 0⟩, 5, 0⟩ [] = .error .outOfFuel := by
    intro fuel
    refine loop_diverges (P := fun c => c.source = ⟨⟨5, some 0⟩, 5, 0⟩) ?_ rfl fuel
    rintro ⟨s, t, p, buffer⟩ rfl
    have hend : (FileInStream.inStream []).end ⟨⟨5, some 0⟩, 5, 0⟩ = false := rfl
    have hread : (FileInStream.inStream []).read ⟨⟨5, some 0⟩, 5, 0⟩ bufferSize =
        .ok (⟨0, []⟩, ⟨⟨5, some 0⟩, 5, 0⟩) := by
      simpa using file_read [] 5 0 5 0 bufferSize
    have hstore : store buffer 0 [] = .ok buffer := by simp [store]
    have hload : load buffer 0 (toWord 0) = .ok [] := by simp [load, toWord]
    refine ⟨⟨⟨⟨5, some 0⟩, 5, 0⟩, t ++ [], p, buffer⟩, ?_, rfl⟩
    simp only [copyPass, hend, Bool.false_eq_true, if_false, Progresser.none, hread, ok_bind,
      hstore, hload]
    rfl
  refine ⟨_, rfl, file_drains [], collector_accepts.counts, hloops, ?_⟩
  intro h
  obtain ⟨fuel, r, hcopy⟩ := h.copy ⟨⟨5, some 0⟩, 5, 0⟩ []
  rw [hloops fuel] at hcopy
  cases hcopy

end CkCore.Proofs.CopyReturns
