import CkCore.Proofs.Crc
import CkCore.Proofs.MemoryIn
import CkCore.Proofs.MemoryOut
import CkCore.Proofs.TowerCopy

namespace CkCore.Proofs.TowerEnds
open Lib Copy Cursor OutTower

section
variable {σ π : Type} {src : InStream σ} {content : List Byte} {pos : σ → Nat}
  {progresser : Progresser π} {fuel : Nat} {ins outs : List Nat} {s : σ}

/-- A checksum stream collects what it is given in its register. -/
theorem crc_simulates (c : CrcReference) (most total : Nat) :
    OutStream.Simulates most (fun l t => Crc.Stands c (c.register l) t) (gatherer total)
      CrcStream.outStream := by
  apply gatherer_simulated
  intro l t ht data _ _
  exact ⟨(t.write data).2, rfl, ht.call (.write data)⟩

/-- Copying a file's content through any buffers into a checksum stream and
flushing gives the reference checksum of the content. -/
theorem copied_checksum (type : CrcType) (hsrc : Serves src content pos) (hne : ins ≠ [])
    (hw : ∀ n ∈ ins, n < word) (h0 : pos s = 0) (hfit : fitting bufferSize outs)
    (hc : content.length < fuel) (hf : word ≤ fuel) (p : π) :
    ∃ r, copyProgresser (InTower.inStream src fuel ins) (outStream CrcStream.outStream fuel outs)
        progresser fuel (InTower.init s ins) (init (CrcStream.create type) outs) p = .ok r ∧
      ∃ T, flushAll CrcStream.outStream fuel outs r.sink = .ok T ∧
        (r.ret = true →
          (base outs T).result = ((CrcReference.standard type).crc content).setWidth 32) := by
  have hsim := crc_simulates (.standard type) word content.length
  have hcreate : Crc.Stands (.standard type) ((CrcReference.standard type).register [])
      (CrcStream.create type) := Crc.create_stands type
  have hinit := OutTowers.init_holds
    (R := fun l t => Crc.Stands (.standard type) ((CrcReference.standard type).register l) t)
    hcreate (OutTowers.fitting_word hfit)
  obtain ⟨r, hrun, _, part, _, hwhole, T, hflush, hT⟩ :=
    TowerCopy.stands_copied (InTowers.serves_stands hsrc hc hne hw s (c := 0) h0) (by decide)
      hsim hfit hinit (Nat.le_of_eq (Nat.zero_add _)) hc hf progresser p
  refine ⟨r, hrun, T, hflush, ?_⟩
  intro hret
  rw [List.nil_append, hwhole hret] at hT
  exact hT.result

/-- The checksum the repository's own test expects, of three bytes that come one
at a time. -/
theorem copied_checksum_three :
    ∃ r, copyProgresser (InTower.inStream (pieces [0x70, 0x6a, 0x77] 1) word [2])
        (outStream CrcStream.outStream word [2]) Progresser.none word
        (InTower.init (σ := Fin 4) 0 [2]) (init (CrcStream.create .crcCcitt) [2]) () = .ok r ∧
      ∃ T, flushAll CrcStream.outStream word [2] r.sink = .ok T ∧
        (r.ret = true → (base [2] T).result =
          ((CrcReference.standard .crcCcitt).crc [0x70, 0x6a, 0x77]).setWidth 32) :=
  copied_checksum .crcCcitt (pieces_serves [0x70, 0x6a, 0x77] 1 (by decide)) (by decide)
    (by decide) rfl (by simp [fitting, bufferOf]; decide) (by decide) (Nat.le_refl _) ()

end

section
variable {content : List Byte}

/-- A memory stream is a cursor for reads that stay within the words. -/
theorem memory_stands (hsize : content.length < word) :
    InTowers.Stands (word - 1 - content.length) content.length content MemoryInStream.inStream
      (MemoryInStream.init content) 0 := by
  refine ⟨fun c m => m.data = content ∧ m.pos = c.val, ⟨rfl, rfl⟩, ?_, ?_, ?_⟩
  · rintro c m ⟨rfl, hpos⟩
    have hc := c.isLt
    apply Bool.eq_iff_iff.mpr
    simp only [MemoryInStream.inStream, MemoryInStream.end, hpos, Cursor.inStream, beq_iff_eq,
      decide_eq_true_eq]
    omega
  · rintro c m ⟨rfl, hpos⟩ n hn a ha
    cases ha
    have hc := c.isLt
    have hno : m.pos + n < word := by omega
    have hread := MemoryIn.read_inside hsize (by omega) hno
    rw [hpos] at hread
    exact ⟨_, hread, rfl, rfl, rfl⟩
  · rintro c m ⟨rfl, hpos⟩ n hn whence ⟨_, c'⟩ ha
    obtain ⟨htarget, -, rfl, hc⟩ := Cursor.seek_answers ha
    obtain ⟨hok, hdata, hreach⟩ := MemoryIn.seek_reaches m n whence
    refine ⟨_, rfl, hok.symm, hdata, ?_⟩
    rw [hreach.mpr (by rw [hpos]; omega), hpos, hc]

variable {alloc : Alloc}

/-- A growing memory stream gathers up to 2^31 bytes. -/
theorem memory_simulates (ha : MemoryOut.Succeeds alloc) {fuel : Nat}
    (hf : MemoryOut.most < fuel) (size most : Nat) :
    OutStream.Simulates most
      (fun l m => MemoryOut.Stores m l ∧ MemoryOut.Least size l.length m.bufferSize)
      (gatherer MemoryOut.most) (MemoryOutStream.outStream alloc fuel) := by
  apply gatherer_simulated
  rintro l m ⟨hstores, hleast⟩ data _ hroom
  obtain ⟨m', hwrite, hstores', hleast'⟩ := MemoryOut.write_stores ha hstores hleast hroom hf
  exact ⟨m', hwrite, hstores', hleast'⟩

end

end CkCore.Proofs.TowerEnds
