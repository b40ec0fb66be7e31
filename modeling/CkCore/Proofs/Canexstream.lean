import CkCore.Spec.Sending
import CkCore.Spec.Streams

namespace CkCore.Proofs.CanexCopy
open Lib Copy

section
variable {σ τ π : Type} {src : InStream σ} {out : OutStream τ} {progresser : Progresser π}
  {content : List Byte} {pos : σ → Nat} {received : τ → List Byte} (ident ident' : String)

/-- A read both copies make, and its bytes in the buffer. -/
structure Fetched (src : InStream σ) (ident : String) (pos : σ → Nat) (s : σ) (n : Nat)
    (buffer data : List Byte) (source : σ) (buffer' : List Byte) : Prop where
  read : src.read s n = .ok (⟨data.length, data⟩, source)
  returns : (CanexInStream.mk src ident).read s n = .ok ⟨none, ⟨data.length, data⟩, source⟩
  stored : store buffer 0 data = .ok buffer'
  loaded : load buffer' 0 data.length = .ok data
  kept : buffer'.length = bufferSize
  word : toWord data.length = data.length
  counts : (data.length : Int) ≠ -1
  some : 0 < data.length
  small : data.length ≤ n
  next : pos source = pos s + data.length

/-- The next read either fails and throws or fetches some bytes. -/
theorem fetches (hsrc : Delivers src content pos) {s : σ} (hmore : src.end s = false) {n : Nat}
    (hn : 0 < n) (hsmall : n ≤ bufferSize) {buffer : List Byte}
    (hbuffer : buffer.length = bufferSize) :
    (∃ data source buffer' e, src.read s n = .ok (⟨-1, data⟩, source) ∧
      (CanexInStream.mk src ident).read s n = .ok ⟨some e, ⟨-1, data⟩, source⟩ ∧
      store buffer 0 data = .ok buffer') ∨
    ∃ data source buffer', Fetched src ident pos s n buffer data source buffer' := by
  have hword : bufferSize < word := by decide
  rcases hsrc.next hmore hn with
    ⟨data, source, hread, hlen⟩ | ⟨data, source, hread, hpos, hlen, _, hnext⟩
  · obtain ⟨buffer', hstore, _⟩ := store_load buffer data (by omega)
    obtain ⟨e, hthrows⟩ := CanexInStream.read_throws ident hread
    exact Or.inl ⟨data, source, buffer', e, hread, hthrows, hstore⟩
  · obtain ⟨buffer', hstore, hlength, hload⟩ := store_load buffer data (by omega)
    exact Or.inr ⟨data, source, buffer', hread, CanexInStream.read_returns ident hread, hstore,
      hload, hlength.trans hbuffer, toWord_nat (by omega), by omega, hpos, hlen, hnext⟩

/-- The next write either fails and throws or passes the bytes on. -/
theorem writes (hout : AllOrFails out received) (t : τ) (data : List Byte) :
    (∃ sink e, out.write t data = .ok (-1, sink) ∧
      (CanexOutStream.mk out ident').write t data = .ok (some e, sink)) ∨
    ∃ sink, out.write t data = .ok (data.length, sink) ∧
      (CanexOutStream.mk out ident').write t data = .ok (none, sink) ∧
      received sink = received t ++ data := by
  rcases hout t data with ⟨sink, hwrite⟩ | ⟨sink, hwrite, hreceived⟩
  · obtain ⟨e, hthrows⟩ := CanexOutStream.write_throws ident' hwrite
    exact Or.inl ⟨sink, e, hwrite, hthrows⟩
  · exact Or.inr ⟨sink, hwrite, CanexOutStream.write_returns ident' hwrite, hreceived⟩

/-- The bytes of a pass are one part more of what has been sent. -/
theorem sent_next {first c : Sending σ τ π} {parts : List (List Byte)} {data buffer : List Byte}
    {source : σ} {sink : τ} {progress : π}
    (h : first.Sent src progresser received parts c)
    (hmore : src.end c.source = false ∧ 0 < c.size)
    (hcancel : progresser.cancelled c.progress = (false, progress))
    (hf : Fetched src ident pos c.source (amount c.size) c.buffer data source buffer)
    (hreceived : received sink = received c.sink ++ data) :
    first.Sent src progresser received (parts ++ [data]) ⟨source, sink,
      progresser.update progress data.length, buffer, c.size - data.length, data.length⟩ := by
  have hflat : (parts ++ [data]).flatten = parts.flatten ++ data := by simp
  have hleft := h.size
  have hlen := hf.small
  have hread := hf.read
  have hamount := amount_eq c.size
  have hpos := hmore.2
  have hroom : parts.flatten.length < first.size := by omega
  rw [hamount, hleft] at hread
  refine ⟨hf.kept, h.reads.part hmore.1 hroom hread, ?_, ?_, ?_, ?_⟩
  · rw [hflat, List.length_append]
    dsimp only
    omega
  · rw [hflat, ← List.append_assoc, ← h.sink]
    exact hreceived
  · have hasked := h.told.asked (by rw [hcancel])
    rw [hcancel] at hasked
    rw [List.map_append]
    exact hasked.told _
  · simp

/-- One pass of the two loops that send the source: both go round to the same
locals, both are over, or both return for the same reason. -/
theorem send_step (hsrc : Delivers src content pos) (hout : AllOrFails out received)
    {first c : Sending σ τ π} {parts : List (List Byte)} (hsize : first.size < longWord)
    (h : first.Sent src progresser received parts c) :
    (∃ c' data, sendPass src out progresser c = .ok (.again c') ∧
      Canexstream.sendPass ⟨src, ident⟩ ⟨out, ident'⟩ progresser c = .ok (.again c') ∧
      first.Sent src progresser received (parts ++ [data]) c' ∧ c'.size < c.size) ∨
    ((src.end c.source = true ∨ c.size = 0) ∧
      sendPass src out progresser c = .ok (.leave (.inr c)) ∧
      Canexstream.sendPass ⟨src, ident⟩ ⟨out, ident'⟩ progresser c = .ok (.leave (.inr c))) ∨
    ∃ r x, sendPass src out progresser c = .ok (.leave (.inl r)) ∧
      Canexstream.sendPass ⟨src, ident⟩ ⟨out, ident'⟩ progresser c = .ok (.leave (.inl x)) ∧
      r.ret = false ∧ x.source = r.source ∧ x.sink = r.sink ∧
      (x.thrown = none → ∃ p, (progresser.cancelled p).1 = true ∧
        x.progress = (progresser.cancelled p).2) := by
  by_cases hmore : src.end c.source = false ∧ 0 < c.size
  · cases hcancel : progresser.cancelled c.progress with
    | mk cancelled progress =>
      cases cancelled with
      | true =>
        refine Or.inr (Or.inr ⟨⟨false, c.source, c.sink, progress⟩,
          ⟨none, c.source, c.sink, progress⟩, ?_, ?_, rfl, rfl, rfl, ?_⟩)
        · simp [sendPass, hmore, hcancel]
        · simp [Canexstream.sendPass, hmore, hcancel]
        · intro _
          exact ⟨c.progress, by rw [hcancel], by rw [hcancel]⟩
      | false =>
        have hamount := amount_eq c.size
        have hb : 0 < bufferSize := by decide
        have hleft := h.size
        rcases fetches ident hsrc hmore.1 (n := amount c.size) (by omega) (by omega) h.buffer with
          ⟨data, source, buffer, e, hread, hthrows, hstore⟩ | ⟨data, source, buffer, hf⟩
        · refine Or.inr (Or.inr ⟨⟨false, source, c.sink, progress⟩,
            ⟨some e, source, c.sink, progress⟩, ?_, ?_, rfl, rfl, rfl, fun hnone => ?_⟩)
          · simp [sendPass, hmore, hcancel, hread, hstore]
          · simp [Canexstream.sendPass, hmore, hcancel, hthrows, hstore]
          · cases hnone
        · have hlen := hf.small
          have hpos := hf.some
          have hread := hf.read
          have hsub : subLong c.size data.length = c.size - data.length :=
            subLong_eq (by omega) (by omega)
          rcases writes ident' hout c.sink data with
            ⟨sink, e, hwrite, hthrows⟩ | ⟨sink, hwrite, hwrites, hreceived⟩
          · refine Or.inr (Or.inr ⟨⟨false, source, sink, progress⟩,
              ⟨some e, source, sink, progress⟩, ?_, ?_, rfl, rfl, rfl, fun hnone => ?_⟩)
            · simp [sendPass, hmore, hcancel, hread, hf.stored, hf.counts, hf.word, hf.loaded,
                hwrite]
            · simp [Canexstream.sendPass, hmore, hcancel, hf.returns, hf.stored, hf.word, hf.loaded,
                hthrows]
            · cases hnone
          · refine Or.inl ⟨⟨source, sink, progresser.update progress data.length, buffer,
              c.size - data.length, data.length⟩, data, ?_, ?_, ?_, ?_⟩
            · simp [sendPass, hmore, hcancel, hread, hf.stored, hf.counts, hf.word, hf.loaded,
                hwrite, hsub]
            · simp [Canexstream.sendPass, hmore, hcancel, hf.returns, hf.stored, hf.word, hf.loaded,
                hwrites, hsub]
            · exact sent_next ident h hmore hcancel hf hreceived
            · dsimp only
              omega
  · have hover : src.end c.source = true ∨ c.size = 0 := by
      by_cases hend : src.end c.source = true
      · exact Or.inl hend
      · right
        exact Nat.eq_zero_of_not_pos fun hpos => hmore ⟨Bool.eq_false_iff.mpr hend, hpos⟩
    refine Or.inr (Or.inl ⟨hover, ?_, ?_⟩)
    · simp only [sendPass, hmore, if_false]
    · simp only [Canexstream.sendPass, hmore, if_false]

theorem sent_first (src : InStream σ) (progresser : Progresser π) (received : τ → List Byte)
    (s : σ) (t : τ) (p : π) (size : Nat) :
    (Sending.start s t p size).Sent src progresser received [] (Sending.start s t p size) := by
  refine ⟨List.length_replicate, .none, rfl, ?_, .none, rfl⟩
  exact (List.append_nil _).symm

variable (progresser) in
/-- The two loops that send the source end alike. -/
theorem send_run (hsrc : Delivers src content pos) (hout : AllOrFails out received)
    {first : Sending σ τ π} (hsize : first.size < longWord)
    (hfirst : first.Sent src progresser received [] first) {fuel : Nat}
    (hfuel : first.size < fuel) :
    (∃ parts c, loop (sendPass src out progresser) fuel first = .ok (.inr c) ∧
      loop (Canexstream.sendPass ⟨src, ident⟩ ⟨out, ident'⟩ progresser) fuel first = .ok (.inr c) ∧
      first.Sent src progresser received parts c ∧ (src.end c.source = true ∨ c.size = 0)) ∨
    ∃ r x, loop (sendPass src out progresser) fuel first = .ok (.inl r) ∧
      loop (Canexstream.sendPass ⟨src, ident⟩ ⟨out, ident'⟩ progresser) fuel first = .ok (.inl x) ∧
      r.ret = false ∧ x.source = r.source ∧ x.sink = r.sink ∧
      (x.thrown = none → ∃ p, (progresser.cancelled p).1 = true ∧
        x.progress = (progresser.cancelled p).2) := by
  obtain ⟨e, e', hl, hl', hends⟩ : ∃ e e', loop (sendPass src out progresser) fuel first = .ok e ∧
      loop (Canexstream.sendPass ⟨src, ident⟩ ⟨out, ident'⟩ progresser) fuel first = .ok e' ∧
      ((∃ parts c, e = .inr c ∧ e' = .inr c ∧ first.Sent src progresser received parts c ∧
        (src.end c.source = true ∨ c.size = 0)) ∨
      ∃ r x, e = .inl r ∧ e' = .inl x ∧ r.ret = false ∧ x.source = r.source ∧ x.sink = r.sink ∧
        (x.thrown = none → ∃ p, (progresser.cancelled p).1 = true ∧
          x.progress = (progresser.cancelled p).2)) := by
    apply loop_lockstep
      (R := fun c x => x = c ∧ ∃ parts, first.Sent src progresser received parts c)
      Sending.size ?_ fuel first first ⟨rfl, [], hfirst⟩ hfuel
    rintro c x ⟨rfl, parts, h⟩
    rcases send_step ident ident' hsrc hout hsize h with
      ⟨c', data, hb, hb', hsent, hless⟩ | ⟨hover, hb, hb'⟩ | ⟨r, x, hb, hb', hrest⟩
    · exact Or.inl ⟨c', c', hb, hb', ⟨rfl, _, hsent⟩, hless⟩
    · exact Or.inr ⟨_, _, hb, hb', Or.inl ⟨parts, x, rfl, rfl, h, hover⟩⟩
    · exact Or.inr ⟨_, _, hb, hb', Or.inr ⟨r, x, rfl, rfl, hrest⟩⟩
  rcases hends with ⟨parts, c, rfl, rfl, h⟩ | ⟨r, x, rfl, rfl, h⟩
  · exact Or.inl ⟨parts, c, hl, hl', h⟩
  · exact Or.inr ⟨r, x, hl, hl', h⟩

/-- The zeros of a pass are a part of the padding, which the two loops report
each in its own way. -/
theorem padded_next {first c x : Sending σ τ π} {data : List Byte} {sink : τ}
    (h : first.Padded progresser received c x) (hmore : 0 < c.size)
    (hdata : data = List.replicate (amount c.size) 0)
    (hreceived : received sink = received c.sink ++ data) :
    first.Padded progresser received
      ⟨c.source, sink, progresser.update c.progress data.length, List.replicate bufferSize 0,
        c.size - amount c.size, data.length⟩
      ⟨x.source, sink, progresser.update x.progress x.res, List.replicate bufferSize 0,
        c.size - amount c.size, x.res⟩ := by
  have hlen : data.length = amount c.size := by rw [hdata, List.length_replicate]
  have hamount := amount_eq c.size
  have hle := h.size_le
  have hb : 0 < bufferSize := by decide
  obtain ⟨amounts, htold, hsum⟩ := h.told
  obtain ⟨count, hcount, htold'⟩ := h.told'
  refine ⟨List.length_replicate, List.length_replicate, h.source, h.source', rfl, rfl, ?_,
    ?_, ⟨_, htold.told _, ?_⟩, ⟨count + 1, ?_, ?_⟩, h.res⟩
  · dsimp only
    omega
  · have hpadded : first.size - (c.size - amount c.size) =
        first.size - c.size + amount c.size := by omega
    show received sink = received first.sink ++
      List.replicate (first.size - (c.size - amount c.size)) 0
    rw [hreceived, h.zeros, hdata, List.append_assoc, List.replicate_append_replicate,
      hpadded]
  · rw [List.sum_append, hsum, List.sum_singleton]
    dsimp only
    omega
  · rw [hcount, blocks_step hmore, ← hamount]
    dsimp only
    omega
  · rw [List.replicate_succ', ← h.res]
    rw [← h.res] at htold'
    exact htold'.told _

/-- One pass of the two padding loops. -/
theorem pad_step (hout : AllOrFails out received) {first c x : Sending σ τ π}
    (hsize : first.size < longWord) (h : first.Padded progresser received c x) :
    (∃ c' x', padPass out progresser c = .ok (.again c') ∧
      Canexstream.padPass ⟨out, ident'⟩ progresser x = .ok (.again x') ∧
      first.Padded progresser received c' x' ∧ c'.size < c.size) ∨
    (c.size = 0 ∧ padPass out progresser c = .ok (.leave ⟨true, c.source, c.sink, c.progress⟩) ∧
      Canexstream.padPass ⟨out, ident'⟩ progresser x =
        .ok (.leave ⟨none, x.source, x.sink, x.progress⟩)) ∨
    ∃ r y, padPass out progresser c = .ok (.leave r) ∧
      Canexstream.padPass ⟨out, ident'⟩ progresser x = .ok (.leave y) ∧
      r.ret = false ∧ y.thrown ≠ none ∧ y.source = r.source ∧ y.sink = r.sink := by
  by_cases hmore : 0 < c.size
  · have hmore' : 0 < x.size := by rw [h.size]; exact hmore
    have hamount := amount_eq c.size
    have hbuffer := h.buffer
    have hbuffer' := h.buffer'
    have hle := h.size_le
    have hsame := h.size
    obtain ⟨hstore, hload⟩ := buffer_zeros hbuffer (n := amount c.size) (by omega)
    obtain ⟨hstore', _⟩ := buffer_zeros hbuffer' (n := amount c.size) (by omega)
    obtain ⟨data, hdata⟩ : ∃ data, data = List.replicate (amount c.size) (0 : Byte) := ⟨_, rfl⟩
    have hlen : data.length = amount c.size := by rw [hdata, List.length_replicate]
    rw [← hdata] at hload
    have hret : (data.length : Int) ≠ -1 := by omega
    have hb : 0 < bufferSize := by decide
    rcases writes ident' hout c.sink data with
      ⟨sink, e, hwrite, hthrows⟩ | ⟨sink, hwrite, hwrites, hreceived⟩
    · refine Or.inr (Or.inr ⟨⟨false, c.source, sink, c.progress⟩,
        ⟨some e, x.source, sink, x.progress⟩, ?_, ?_, rfl, ?_, ?_, rfl⟩)
      · simp [padPass, hmore, hstore, hload, hwrite]
      · simp [Canexstream.padPass, hmore, hstore', hsame, hload, h.sink, hthrows]
      · exact Option.some_ne_none e
      · exact h.source'.trans h.source.symm
    · have hsub : subLong c.size data.length = c.size - amount c.size := by
        rw [hlen]
        exact subLong_eq (by omega) (by omega)
      have hsub' : subLong c.size (amount c.size) = c.size - amount c.size :=
        subLong_eq (by omega) (by omega)
      refine Or.inl ⟨⟨c.source, sink, progresser.update c.progress data.length,
          List.replicate bufferSize 0, c.size - amount c.size, data.length⟩,
        ⟨x.source, sink, progresser.update x.progress x.res,
          List.replicate bufferSize 0, c.size - amount c.size, x.res⟩, ?_, ?_, ?_, ?_⟩
      · simp [padPass, hmore, hstore, hload, hwrite, hret, hsub]
      · simp [Canexstream.padPass, hmore, hstore', hsame, hload, h.sink, hwrites, hsub']
      · exact padded_next h hmore hdata hreceived
      · dsimp only
        omega
  · have hnone : c.size = 0 := by omega
    have hmore' : ¬ 0 < x.size := by
      rw [h.size]
      exact hmore
    refine Or.inr (Or.inl ⟨hnone, ?_, ?_⟩)
    · simp only [padPass, hmore, if_false]
    · simp only [Canexstream.padPass, hmore', if_false]

variable (progresser) in
theorem padded_first {first : Sending σ τ π} (hbuffer : first.buffer.length = bufferSize) :
    first.Padded progresser received first first := by
  refine ⟨hbuffer, hbuffer, rfl, rfl, rfl, rfl, Nat.le_refl _, ?_, ⟨[], .none, ?_⟩,
    ⟨0, ?_, .none⟩, rfl⟩
  · rw [Nat.sub_self, List.replicate_zero, List.append_nil]
  · rw [Nat.sub_self]
    rfl
  · rw [Nat.zero_add]

variable (progresser) in
/-- The two padding loops end alike. -/
theorem pad_run (hout : AllOrFails out received) {first : Sending σ τ π}
    (hsize : first.size < longWord) (hbuffer : first.buffer.length = bufferSize) {fuel : Nat}
    (hfuel : first.size < fuel) :
    ∃ r y, loop (padPass out progresser) fuel first = .ok r ∧
      loop (Canexstream.padPass ⟨out, ident'⟩ progresser) fuel first = .ok y ∧
      ((∃ c x, first.Padded progresser received c x ∧ c.size = 0 ∧
        r = ⟨true, c.source, c.sink, c.progress⟩ ∧ y = ⟨none, x.source, x.sink, x.progress⟩) ∨
      (r.ret = false ∧ y.thrown ≠ none ∧ y.source = r.source ∧ y.sink = r.sink)) := by
  apply loop_lockstep (R := fun c x => first.Padded progresser received c x) Sending.size ?_ fuel
    first first (padded_first progresser hbuffer) hfuel
  intro c x h
  rcases pad_step ident' hout hsize h with
    ⟨c', x', hb, hb', hpadded, hless⟩ | ⟨hnone, hb, hb'⟩ | ⟨r, y, hb, hb', hrest⟩
  · exact Or.inl ⟨c', x', hb, hb', hpadded, hless⟩
  · exact Or.inr ⟨_, _, hb, hb', Or.inl ⟨c, x, h, hnone, rfl, rfl⟩⟩
  · exact Or.inr ⟨r, y, hb, hb', Or.inr hrest⟩

/-- Sending and padding put together. -/
theorem completes {s : σ} {t : τ} {p : π} {size : Nat} {parts : List (List Byte)}
    {c d x : Sending σ τ π}
    (hsent : (Sending.start s t p size).Sent src progresser received parts c)
    (hlength : parts.flatten.length ≤ size) (hover : src.end c.source = true ∨ c.size = 0)
    (hpadded : c.Padded progresser received d x) (hnone : d.size = 0) :
    Completed src progresser received s t p size parts
      ⟨true, d.source, d.sink, d.progress⟩ ⟨none, x.source, x.sink, x.progress⟩ := by
  have hleft : c.size = size - parts.flatten.length := hsent.size
  obtain ⟨amounts, htold, hsum⟩ := hpadded.told
  obtain ⟨count, hcount, htold'⟩ := hpadded.told'
  refine ⟨⟨iff_of_true rfl rfl, hpadded.source'.trans hpadded.source.symm, hpadded.sink⟩, rfl, ?_,
    ?_, ?_, ⟨_, hsent.told.trans htold, ?_⟩, ?_⟩
  · show src.Reads bufferSize size s parts d.source
    rw [hpadded.source]
    exact hsent.reads
  · show src.end d.source = true ∨ _
    rw [hpadded.source]
    exact hover.imp_right (fun h => by omega)
  · have hsink : received c.sink = received t ++ parts.flatten := hsent.sink
    show received d.sink = _
    rw [hpadded.zeros, hsink, hnone, hleft, Nat.sub_zero]
  · rw [List.sum_append, lengths_sum, hsum]
    omega
  · rw [hnone, blocks_zero, Nat.add_zero] at hcount
    rw [← hcount, hleft, hsent.res] at htold'
    exact hsent.told.trans htold'

variable (progresser) in
/-- The two copies of a given size both return, both at their end or both short of it. -/
theorem sized_run (hsrc : Delivers src content pos) (hout : AllOrFails out received) (s : σ)
    (t : τ) (p : π) {size : Nat} (hsize : size < longWord) {fuel : Nat} (hfuel : size < fuel) :
    ∃ c x, copySized src out progresser fuel s t p size = .ok c ∧
      Canexstream.copySized ⟨src, ident⟩ ⟨out, ident'⟩ progresser fuel s t p size = .ok x ∧
      ((∃ parts, Completed src progresser received s t p size parts c x) ∨
      (c.ret = false ∧ x.source = c.source ∧ x.sink = c.sink ∧
        (x.thrown = none → ∃ p, (progresser.cancelled p).1 = true ∧
          x.progress = (progresser.cancelled p).2))) := by
  unfold copySized Canexstream.copySized
  rcases send_run progresser ident ident' hsrc hout hsize
      (sent_first src progresser received s t p size) hfuel with
    ⟨parts, c, hl, hl', hsent, hover⟩ | ⟨r, x, hl, hl', hret, hsource, hsink, hcancel⟩
  · have hpos : 0 < bufferSize := by decide
    obtain ⟨_, _, hlength⟩ := hsent.reads.taken hsrc hpos
    have hleft := hsent.size
    have hstart : (Sending.start s t p size).size = size := rfl
    rw [hstart] at hlength hleft
    have hword : c.size < longWord := by omega
    have hfuel' : c.size < fuel := by omega
    obtain ⟨r, y, hp, hp', ⟨d, x, hpadded, hnone, rfl, rfl⟩ | ⟨hret, hthrown, hsource, hsink⟩⟩ :=
      pad_run progresser ident' hout hword hsent.buffer hfuel'
    · refine ⟨_, _, ?_, ?_, Or.inl ⟨parts, completes hsent hlength hover hpadded hnone⟩⟩
      · rw [hl]
        exact hp
      · rw [hl']
        exact hp'
    · refine ⟨r, y, ?_, ?_, Or.inr ⟨hret, hsource, hsink, fun hnone => absurd hnone hthrown⟩⟩
      · rw [hl]
        exact hp
      · rw [hl']
        exact hp'
  · refine ⟨r, x, ?_, ?_, Or.inr ⟨hret, hsource, hsink, hcancel⟩⟩
    · rw [hl]
      rfl
    · rw [hl']
      rfl

/-- One pass of the two copies to the end of the source. -/
theorem copy_step (hsrc : Delivers src content pos) (hout : AllOrFails out received)
    (never : ∀ p, (progresser.cancelled p).1 = false) {c : Copying σ τ π}
    (hbuffer : c.buffer.length = bufferSize) :
    (∃ c', copyPass src out progresser c = .ok (.again c') ∧
      Canexstream.copyPass ⟨src, ident⟩ ⟨out, ident'⟩ progresser c = .ok (.again c') ∧
      c'.buffer.length = bufferSize ∧
      content.length - pos c'.source < content.length - pos c.source) ∨
    ∃ r x, copyPass src out progresser c = .ok (.leave r) ∧
      Canexstream.copyPass ⟨src, ident⟩ ⟨out, ident'⟩ progresser c = .ok (.leave x) ∧
      Agree r x := by
  by_cases hend : src.end c.source = true
  · refine Or.inr ⟨⟨true, c.source, c.sink, c.progress⟩, ⟨none, c.source, c.sink, c.progress⟩,
      ?_, ?_, iff_of_true rfl rfl, rfl, rfl⟩
    · simp only [copyPass, hend, if_true]
    · simp only [Canexstream.copyPass, hend, if_true]
  · have hmore : src.end c.source = false := Bool.eq_false_iff.mpr hend
    have hnever := never c.progress
    cases hcancel : progresser.cancelled c.progress with
    | mk cancelled progress =>
      rw [hcancel] at hnever
      dsimp only at hnever
      subst hnever
      rcases fetches ident hsrc hmore (n := bufferSize) (by decide) (Nat.le_refl _) hbuffer with
        ⟨data, source, buffer, e, hread, hthrows, hstore⟩ | ⟨data, source, buffer, hf⟩
      · refine Or.inr ⟨⟨false, source, c.sink, progress⟩, ⟨some e, source, c.sink, progress⟩,
          ?_, ?_, iff_of_false Bool.false_ne_true (Option.some_ne_none e), rfl, rfl⟩
        · simp [copyPass, hmore, hcancel, hread, hstore]
        · simp [Canexstream.copyPass, hmore, hcancel, hthrows, hstore]
      · rcases writes ident' hout c.sink data with
          ⟨sink, e, hwrite, hthrows⟩ | ⟨sink, hwrite, hwrites, _⟩
        · refine Or.inr ⟨⟨false, source, sink, progress⟩, ⟨some e, source, sink, progress⟩,
            ?_, ?_, iff_of_false Bool.false_ne_true (Option.some_ne_none e), rfl, rfl⟩
          · simp [copyPass, hmore, hcancel, hf.read, hf.stored, hf.counts, hf.word, hf.loaded,
              hwrite]
          · simp [Canexstream.copyPass, hmore, hcancel, hf.returns, hf.stored, hf.word, hf.loaded,
              hthrows]
        · have hbound := hsrc.bounded source
          have hnext := hf.next
          have hpos := hf.some
          refine Or.inl ⟨⟨source, sink, progresser.update progress data.length, buffer⟩,
            ?_, ?_, hf.kept, ?_⟩
          · simp [copyPass, hmore, hcancel, hf.read, hf.stored, hf.counts, hf.word, hf.loaded,
              hwrite]
          · simp [Canexstream.copyPass, hmore, hcancel, hf.returns, hf.stored, hf.word, hf.loaded,
              hwrites]
          · dsimp only
            omega

/-- While nobody cancels, stream::copy returns true just when canexstream::copy
does not throw, and the streams are left in the same states; for the whole
source and for a given size. -/
theorem copies_agree (hsrc : Delivers src content pos) (hout : AllOrFails out received)
    (never : ∀ p, (progresser.cancelled p).1 = false) (s : σ) (t : τ) (p : π) :
    (∀ fuel, content.length - pos s < fuel →
      ∃ c x, copyProgresser src out progresser fuel s t p = .ok c ∧
        Canexstream.copy ⟨src, ident⟩ ⟨out, ident'⟩ progresser fuel s t p = .ok x ∧ Agree c x) ∧
    ∀ size fuel, size < longWord → size < fuel →
      ∃ c x, copySized src out progresser fuel s t p size = .ok c ∧
        Canexstream.copySized ⟨src, ident⟩ ⟨out, ident'⟩ progresser fuel s t p size = .ok x ∧
        Agree c x := by
  constructor
  · intro fuel hfuel
    apply loop_lockstep (R := fun c x => x = c ∧ c.buffer.length = bufferSize)
      (fun c => content.length - pos c.source) ?_ fuel _ _ ⟨rfl, List.length_replicate⟩ hfuel
    rintro c x ⟨rfl, hbuffer⟩
    rcases copy_step ident ident' hsrc hout never hbuffer with
      ⟨c', hb, hb', hbuffer', hless⟩ | ⟨r, y, hb, hb', hagree⟩
    · exact Or.inl ⟨c', c', hb, hb', ⟨rfl, hbuffer'⟩, hless⟩
    · exact Or.inr ⟨r, y, hb, hb', hagree⟩
  · intro size fuel hsize hfuel
    obtain ⟨c, x, hc, hx, ⟨parts, h⟩ | ⟨hret, hsource, hsink, hcancel⟩⟩ :=
      sized_run progresser ident ident' hsrc hout s t p hsize hfuel
    · exact ⟨c, x, hc, hx, h.toAgree⟩
    · refine ⟨c, x, hc, hx, ?_, hsource, hsink⟩
      rw [hret]
      refine iff_of_false Bool.false_ne_true ?_
      intro hnone
      obtain ⟨q, hq, _⟩ := hcancel hnone
      rw [never q] at hq
      cases hq

/-- All through the sending loop. -/
theorem sent_passes (hsrc : Delivers src content pos) (hout : AllOrFails out received)
    {first c : Sending σ τ π} (hsize : first.size < longWord)
    (hfirst : first.Sent src progresser received [] first)
    (h : Passes (sendPass src out progresser) first c) :
    ∃ parts, first.Sent src progresser received parts c := by
  refine h.invariant (P := fun c => ∃ parts, first.Sent src progresser received parts c) ?_
    ⟨[], hfirst⟩
  rintro c c' ⟨parts, hc⟩ hpass
  rcases send_step "" "" hsrc hout hsize hc with
    ⟨d, data, hb, _, hsent, _⟩ | ⟨_, hb, _⟩ | ⟨r, x, hb, _⟩
  · rw [hpass] at hb
    cases hb
    exact ⟨_, hsent⟩
  · rw [hpass] at hb
    cases hb
  · rw [hpass] at hb
    cases hb

/-- The sending loop ends with the locals it has come to. -/
theorem sent_over (hsrc : Delivers src content pos) (hout : AllOrFails out received)
    {first c d : Sending σ τ π} {parts : List (List Byte)} (hsize : first.size < longWord)
    (h : first.Sent src progresser received parts c)
    (hpass : sendPass src out progresser c = .ok (.leave (.inr d))) : d = c := by
  rcases send_step "" "" hsrc hout hsize h with
    ⟨_, _, hb, _⟩ | ⟨_, hb, _⟩ | ⟨_, _, hb, _⟩
  · rw [hpass] at hb
    cases hb
  · rw [hpass] at hb
    cases hb
    rfl
  · rw [hpass] at hb
    cases hb

/-- The bytes sent and the counter add up. -/
theorem sent_counts (hsrc : Delivers src content pos) {first c : Sending σ τ π}
    {parts : List (List Byte)} (h : first.Sent src progresser received parts c) :
    (received c.sink).length + c.size = (received first.sink).length + first.size := by
  obtain ⟨_, _, hlength⟩ := h.reads.taken hsrc (by decide)
  have hleft := h.size
  rw [h.sink, List.length_append]
  omega

/-- They add up all through the padding loop too. -/
theorem pad_counts (hout : AllOrFails out received) {first c : Sending σ τ π}
    (hsize : first.size < longWord) (hbuffer : first.buffer.length = bufferSize)
    (h : Passes (padPass out progresser) first c) :
    (received c.sink).length + c.size = (received first.sink).length + first.size := by
  have hpadded : ∃ x, first.Padded progresser received c x := by
    refine h.invariant (P := fun c => ∃ x, first.Padded progresser received c x) ?_
      ⟨first, padded_first progresser hbuffer⟩
    rintro c c' ⟨x, hc⟩ hpass
    rcases pad_step "" hout hsize hc with
      ⟨d, y, hb, _, hpadded, _⟩ | ⟨_, hb, _⟩ | ⟨r, x, hb, _⟩
    · rw [hpass] at hb
      cases hb
      exact ⟨y, hpadded⟩
    · rw [hpass] at hb
      cases hb
    · rw [hpass] at hb
      cases hb
  obtain ⟨x, hc⟩ := hpadded
  have hle := hc.size_le
  rw [hc.zeros, List.length_append, List.length_replicate]
  omega

/-- What was read of a source that was read to its end or for all of the size. -/
theorem Completed.taken (hsrc : Delivers src content pos) {s : σ} {t : τ} {p : π} {size : Nat}
    {parts : List (List Byte)} {c : Copied σ τ π} {x : Canexstream.Canexed σ τ π}
    (h : Completed src progresser received s t p size parts c x) :
    parts.flatten = (content.drop (pos s)).take (min size (content.length - pos s)) ∧
      parts.flatten.length = min size (content.length - pos s) ∧
      pos c.source = pos s + min size (content.length - pos s) := by
  obtain ⟨hpos, htake, hlength⟩ := h.reads.taken hsrc (by decide)
  have hbound := hsrc.bounded c.source
  have hcount : parts.flatten.length = min size (content.length - pos s) := by
    rcases h.ended with hend | hall
    · rw [hsrc.ended] at hend
      omega
    · omega
  rw [hcount] at htake hpos
  exact ⟨htake, hcount, hpos⟩

/-- The copy of a given size returns; when it returns true the sink has received
exactly that many bytes, the first of the source and then zeros, and as many of
the source as there were are consumed. The counter never wraps. -/
theorem copySized_exact (hsrc : Delivers src content pos) (hout : AllOrFails out received)
    (progresser : Progresser π) (s : σ) (t : τ) (p : π) {size fuel : Nat} (hsize : size < longWord)
    (hfuel : size < fuel) :
    (∃ c, copySized src out progresser fuel s t p size = .ok c ∧ (c.ret = true →
      received c.sink = received t ++
          (content.drop (pos s)).take (min size (content.length - pos s)) ++
          List.replicate (size - min size (content.length - pos s)) 0 ∧
        (received c.sink).length = (received t).length + size ∧
        pos c.source = pos s + min size (content.length - pos s))) ∧
    (∀ c, Passes (sendPass src out progresser) (.start s t p size) c →
      (received c.sink).length + c.size = (received t).length + size) ∧
    ∀ c d, loop (sendPass src out progresser) fuel (.start s t p size) = .ok (.inr c) →
      Passes (padPass out progresser) c d →
        (received d.sink).length + d.size = (received t).length + size := by
  have hfirst := sent_first src progresser received s t p size
  refine ⟨?_, ?_, ?_⟩
  · obtain ⟨c, x, hc, _, ⟨parts, h⟩ | ⟨hret, _⟩⟩ :=
      sized_run progresser "" "" hsrc hout s t p hsize hfuel
    · obtain ⟨htake, hcount, hpos⟩ := Completed.taken hsrc h
      have hzeros := h.zeros
      refine ⟨c, hc, fun _ => ⟨?_, ?_, hpos⟩⟩
      · rw [hzeros, htake, ← htake, hcount]
      · rw [hzeros, List.length_append, List.length_append, List.length_replicate]
        omega
    · refine ⟨c, hc, fun hdone => ?_⟩
      rw [hret] at hdone
      cases hdone
  · intro c hpasses
    obtain ⟨parts, hsent⟩ := sent_passes hsrc hout hsize hfirst hpasses
    exact sent_counts hsrc hsent
  · intro c d hloop hpasses
    obtain ⟨e, hsend, hleave⟩ := loop_passes hloop
    obtain ⟨parts, hsent⟩ := sent_passes hsrc hout hsize hfirst hsend
    obtain rfl := sent_over hsrc hout hsize hsent hleave
    have hword : c.size < longWord := by
      rw [hsent.size]
      exact Nat.lt_of_le_of_lt (Nat.sub_le _ _) hsize
    exact (pad_counts hout hword hsent.buffer hpasses).trans (sent_counts hsrc hsent)

/-- What is reported to a progresser that notes it: the sized stream::copy
reports the size; the sized canexstream::copy reports it if and only if the
writes of the padding, each reported as the last amount read, amount to the
padding. -/
theorem progress_exact_iff (hsrc : Delivers src content pos) (hout : AllOrFails out received)
    (progresser : Progresser π) (s : σ) (t : τ) (p : π) {size fuel : Nat}
    (hsize : size < longWord) (hfuel : size < fuel) :
    (∃ c, copySized src out progresser.noted fuel s t ⟨p, 0, false⟩ size = .ok c ∧
      (c.ret = true → (received c.sink).length = (received t).length + size ∧
        c.progress.reported = size)) ∧
    ∃ x, Canexstream.copySized ⟨src, ident⟩ ⟨out, ident'⟩ progresser.noted fuel s t
        ⟨p, 0, false⟩ size = .ok x ∧
      (x.thrown = none → x.progress.cancelled = false →
        (received x.sink).length = (received t).length + size ∧
        ∃ parts, src.Reads bufferSize size s parts x.source ∧
          (src.end x.source = true ∨ parts.flatten.length = size) ∧
          (x.progress.reported = size ↔
            blocks (size - (content.length - pos s)) * lastLength parts =
              size - (content.length - pos s))) := by
  obtain ⟨c, x, hc, hx, ⟨parts, h⟩ | ⟨hret, hsource, hsink, hcancel⟩⟩ :=
    sized_run progresser.noted ident ident' hsrc hout s t ⟨p, 0, false⟩ hsize hfuel
  · obtain ⟨htake, hcount, hpos⟩ := Completed.taken hsrc h
    have hlength : (received c.sink).length = (received t).length + size := by
      rw [h.zeros, List.length_append, List.length_append, List.length_replicate]
      omega
    obtain ⟨amounts, htold, hsum⟩ := h.told
    refine ⟨⟨c, hc, fun _ => ⟨hlength, ?_⟩⟩, ⟨x, hx, fun _ _ => ⟨?_, parts, ?_, ?_, ?_⟩⟩⟩
    · rw [htold.noted.1, hsum]
      exact Int.zero_add _
    · rw [h.sink]
      exact hlength
    · rw [h.source]
      exact h.reads
    · rw [h.source]
      exact h.ended
    · have hpad : size - parts.flatten.length = size - (content.length - pos s) := by omega
      have htold' := h.told'
      rw [hpad] at htold'
      rw [htold'.noted.1, List.sum_append, lengths_sum, replicate_sum, hcount]
      dsimp only
      omega
  · refine ⟨⟨c, hc, fun hdone => ?_⟩, ⟨x, hx, fun hnone hnever => ?_⟩⟩
    · rw [hret] at hdone
      cases hdone
    · obtain ⟨q, hq, hprogress⟩ := hcancel hnone
      rw [hprogress] at hnever
      simp only [Progresser.noted] at hq hnever
      rw [hq, Bool.or_true] at hnever
      cases hnever

end

/-- Three bytes read in twos to a sink that refuses the second write: the two
copies of five bytes agree. -/
theorem copies_agree_three :
    ∃ c x, copySized (pieces [1, 2, 3] 2) scripted Progresser.none 6 0 ([true, false], []) () 5 =
        .ok c ∧
      Canexstream.copySized ⟨pieces [1, 2, 3] 2, "source"⟩ ⟨scripted, "sink"⟩ Progresser.none 6 0
        ([true, false], []) () 5 = .ok x ∧ Agree c x :=
  (copies_agree "source" "sink" (pieces_serves [1, 2, 3] 2 (by decide)).delivers
    scripted_all_or_nothing.all_or_fails (fun _ => rfl) 0 ([true, false], []) ()).2 5 6
    (by decide) (by decide)

/-- Five bytes of a source of three: all of it and two zeros. -/
theorem copySized_exact_three :
    ∃ c, copySized (pieces [1, 2, 3] 2) scripted Progresser.none 6 0 ([true], []) () 5 = .ok c ∧
      (c.ret = true → c.sink.2 = [1, 2, 3, 0, 0] ∧ c.source = 3) := by
  obtain ⟨⟨c, hc, h⟩, _⟩ := copySized_exact (pieces_serves [1, 2, 3] 2 (by decide)).delivers
    scripted_all_or_nothing.all_or_fails Progresser.none 0 ([true], []) ()
    (show 5 < longWord by decide) (show 5 < 6 by decide)
  refine ⟨c, hc, fun hret => ?_⟩
  obtain ⟨hsink, _, hpos⟩ := h hret
  exact ⟨hsink, Fin.ext hpos⟩

/-- Three bytes asked of a source of one: the padding of two bytes is reported
by canexstream::copy as one byte, by stream::copy as two. -/
theorem progress_short_of_padding :
    Canexstream.copySized ⟨pieces [1] 1, "source"⟩ ⟨collector, "sink"⟩ Progresser.none.noted 4 0 []
        ⟨(), 0, false⟩ 3 = .ok ⟨none, 1, [1, 0, 0], ⟨(), 2, false⟩⟩ ∧
      copySized (pieces [1] 1) collector Progresser.none.noted 4 0 [] ⟨(), 0, false⟩ 3 =
        .ok ⟨true, 1, [1, 0, 0], ⟨(), 3, false⟩⟩ :=
  ⟨ok_of_toOption (by decide +kernel), ok_of_toOption (by decide +kernel)⟩

/-- One byte more than the source has, after a last read of one byte. -/
theorem progress_exact_two :
    ∃ x, Canexstream.copySized ⟨pieces [7] 1, "source"⟩ ⟨collector, "sink"⟩
        Progresser.none.noted 3 0 [] ⟨(), 0, false⟩ 2 = .ok x ∧
      (x.thrown = none → x.progress.cancelled = false →
          ∃ parts, (pieces [7] 1).Reads bufferSize 2 0 parts x.source ∧
            (x.progress.reported = 2 ↔ blocks 1 * lastLength parts = 1)) := by
  obtain ⟨_, x, hx, h⟩ := progress_exact_iff "source" "sink"
    (pieces_serves [7] 1 (by decide)).delivers collector_accepts.all_or_nothing.all_or_fails
    Progresser.none 0 [] () (show 2 < longWord by decide) (show 2 < 3 by decide)
  refine ⟨x, hx, fun hnone hnever => ?_⟩
  obtain ⟨_, parts, hreads, _, hiff⟩ := h hnone hnever
  exact ⟨parts, hreads, hiff⟩

end CkCore.Proofs.CanexCopy
