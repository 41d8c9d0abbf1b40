import Mema.Viewer.Reader

/-!
# What becomes of any file

`memaviz/data.go:28–69,113–201` on files that need not be traces: the header and the whole
frames that are read, and where and how the viewer panics otherwise.
-/

namespace Mema

open Bytes Framing Buffered

/-- Why the block loop ends at the bytes left of a file, if not at a clean end. -/
inductive Stops : List UInt8 → Option GoPanic → Prop
  | clean : Stops [] none
  | cutLength {tail : List UInt8} (hsome : tail ≠ []) (hcut : tail.length < 8) :
    Stops tail (some .unexpectedEOF)
  | tooLong {tail : List UInt8} (hlength : 8 ≤ tail.length)
    (hlong : viewerBufsize < leNat (tail.take 8)) : Stops tail (some .sliceBounds)
  | cutPayload {tail : List UInt8} (hlength : 8 ≤ tail.length)
    (hfits : leNat (tail.take 8) ≤ viewerBufsize)
    (hcut : (tail.drop 8).length < leNat (tail.take 8)) : Stops tail (some .shortBlock)

/-- What a file loads to: it begins with the magic bytes, an accepted table up to the first NUL,
and whole frames of payloads that fit; what is left of it decides how the loop ends. -/
inductive FileLoads (clz4 : Clz4) (accepts : List UInt8 → Bool) :
    List UInt8 → Except GoPanic (List RawBlock) → Prop
  | badMagic {file : List UInt8} (h : ¬ magicBytes <+: file) :
    FileLoads clz4 accepts file (.error .badMagic)
  | unterminated {rest : List UInt8} (h : 0 ∉ rest) :
    FileLoads clz4 accepts (magicBytes ++ rest) (.error .pageTable)
  | refused {table rest : List UInt8} (htable : 0 ∉ table) (h : accepts table = false) :
    FileLoads clz4 accepts (magicBytes ++ (table ++ 0 :: rest)) (.error .pageTable)
  | blocks {table tail : List UInt8} {ps : List (List UInt8)} {panic : Option GoPanic}
    (htable : 0 ∉ table) (haccepts : accepts table = true)
    (hfits : ∀ p ∈ ps, p.length ≤ viewerBufsize) (hstops : Stops tail panic) :
    FileLoads clz4 accepts (magicBytes ++ (table ++ 0 :: (frames 8 ps ++ tail)))
      (panic.elim (.ok (blocksOf clz4 (8 + table.length + 1) round1Buffer ps)) .error)

/-! ### One block -/

/-- What is left of the file ends the loop, or it begins with a frame that fits. -/
theorem stops_or_frame (rest : List UInt8) :
    (∃ panic, Stops rest panic) ∨
      ∃ p rest', rest = frame 8 p ++ rest' ∧ p.length ≤ viewerBufsize := by
  by_cases hnil : rest = []
  · exact .inl ⟨none, hnil ▸ .clean⟩
  · by_cases hlength : 8 ≤ rest.length
    · by_cases hfits : leNat (rest.take 8) ≤ viewerBufsize
      · by_cases hcut : (rest.drop 8).length < leNat (rest.take 8)
        · exact .inl ⟨_, .cutPayload hlength hfits hcut⟩
        · let p := (rest.drop 8).take (leNat (rest.take 8))
          have hp : p.length = leNat (rest.take 8) := List.length_take_of_le (by omega)
          have h8 : (rest.take 8).length = 8 := List.length_take_of_le hlength
          have hhead : leBytes 8 p.length = rest.take 8 := by
            have hword := leBytes_leNat (rest.take 8)
            rwa [h8, ← hp] at hword
          refine .inr ⟨p, (rest.drop 8).drop (leNat (rest.take 8)), ?_, hp ▸ hfits⟩
          rw [frame, hhead, List.append_assoc, List.take_append_drop, List.take_append_drop]
      · exact .inl ⟨_, .tooLong hlength (by omega)⟩
    · exact .inl ⟨_, .cutLength hnil (by omega)⟩

/-- Where nothing whole is left the block loop ends as the remaining bytes say. -/
theorem readBlocks_stops (clz4 : Clz4) {file : List UInt8} {cursor : Nat}
    {panic : Option GoPanic} {input : GoSlice} (round1 : GoSlice)
    (hcap : input.cap = viewerBufsize) (h : Stops (file.drop cursor) panic) :
    readBlocks clz4 file cursor input round1 = panic.elim (.ok []) .error := by
  have hread : readBlock file cursor input = panic.elim (.ok none) .error := by
    rw [readBlock]
    generalize hrest : file.drop cursor = rest at h
    have hload (n : Nat) : load file cursor n = rest.take n := by rw [load, hrest]
    have hbody (n : Nat) : load file (cursor + 8) n = (rest.drop 8).take n := by
      rw [load, ← List.drop_drop, hrest]
    simp only [hload, hbody, hcap]
    cases h with
    | clean => rfl
    | cutLength hsome hcut =>
      have hpos : 0 < rest.length := List.length_pos_of_ne_nil hsome
      have hhead : (rest.take 8).length = rest.length := by
        rw [List.take_of_length_le hcut.le]
      rw [if_neg (by omega), if_pos (by omega)]
      rfl
    | tooLong hlength hlong =>
      rw [List.length_take_of_le hlength, if_neg (by decide), if_neg (by decide),
        dif_neg (by omega)]
      rfl
    | cutPayload hlength hfits hcut =>
      rw [List.length_take_of_le hlength, if_neg (by decide), if_neg (by decide), dif_pos hfits,
        dif_neg (by rw [List.length_take]; omega)]
      rfl
  rw [readBlocks, hread]
  cases panic with
  | none => rfl
  | some p => rfl

/-- The block loop on any bytes: whole frames that fit, then why it ends. -/
theorem readBlocks_frames_stops (clz4 : Clz4) {file : List UInt8} {cursor : Nat}
    {ps : List (List UInt8)} {tail : List UInt8} {panic : Option GoPanic} {input : GoSlice}
    (round1 : GoSlice) (hcap : input.cap = viewerBufsize)
    (h : file.drop cursor = frames 8 ps ++ tail)
    (hfits : ∀ p ∈ ps, p.length ≤ viewerBufsize) (hstops : Stops tail panic) :
    readBlocks clz4 file cursor input round1 =
      panic.elim (.ok (blocksOf clz4 cursor round1 ps)) .error := by
  induction ps generalizing cursor input round1 with
  | nil =>
    rw [frames_nil, List.nil_append] at h
    rw [← h] at hstops
    exact readBlocks_stops clz4 round1 hcap hstops
  | cons p ps ih =>
    rw [frames_cons, List.append_assoc] at h
    have hp := hfits p (List.mem_cons_self ..)
    obtain ⟨input', hread, hview, hcap'⟩ := readBlock_frame h (hcap.symm ▸ hp)
      (Nat.lt_of_le_of_lt hp (by decide))
    have hdrop : file.drop (cursor + 8 + p.length) = frames 8 ps ++ tail := by
      rw [Nat.add_assoc, ← List.drop_drop, h, ← length_frame, List.drop_left]
    have hrec := ih (decodeRecords clz4 p round1).2 (hcap'.trans hcap) hdrop
      fun q hq ↦ hfits q (List.mem_cons_of_mem _ hq)
    rw [readBlocks, hread]
    simp only [hview, hrec]
    cases panic with
    | none => rfl
    | some e => rfl

/-- Any bytes are whole frames that fit and something the block loop ends at. -/
theorem exists_frames_stops (bs : List UInt8) :
    ∃ ps tail panic, bs = frames 8 ps ++ tail ∧ (∀ p ∈ ps, p.length ≤ viewerBufsize) ∧
      Stops tail panic := by
  induction hlen : bs.length using Nat.strong_induction_on generalizing bs with
  | _ n ih =>
    rcases stops_or_frame bs with ⟨panic, hstops⟩ | ⟨p, rest, rfl, hfits⟩
    · exact ⟨[], bs, panic, rfl, by simp, hstops⟩
    · rw [List.length_append, length_frame] at hlen
      obtain ⟨ps, tail, panic, rfl, hps, hstops⟩ := ih rest.length (by omega) rest rfl
      refine ⟨p :: ps, tail, panic, ?_, ?_, hstops⟩
      · rw [frames_cons, List.append_assoc]
      · intro q hq
        rcases List.mem_cons.mp hq with rfl | hmem
        · exact hfits
        · exact hps q hmem

/-! ### The header -/

/-- Without the magic bytes in front the viewer panics. -/
theorem parseHeader_badMagic {file : List UInt8} (h : ¬ magicBytes <+: file) :
    parseHeader (Reader.opened file) = .error .badMagic := by
  have hread : ((Reader.opened file).read viewerBufsize 8).1 = file.take 8 := by
    show (([] ++ (file.drop 0).take (viewerBufsize - 0)).take 8) = file.take 8
    rw [List.nil_append, List.drop_zero, List.take_take, Nat.min_eq_left (by decide)]
  have hne : ((Reader.opened file).read viewerBufsize 8).1 ≠ magicBytes := by
    rw [hread]
    intro hmagic
    exact h (hmagic ▸ List.take_prefix 8 file)
  exact if_neg hne

/-- Without a NUL the page table has no end. -/
theorem parsePageTable_unterminated (accepts : List UInt8 → Bool) {r : Reader UInt8}
    (h : 0 ∉ r.rest) : parsePageTable accepts r = .error .pageTable := by
  rw [parsePageTable, Reader.readBytes_eq_none viewerBufsize h]

/-- The parse of the header on any file. -/
theorem newProgramData_badMagic (accepts : List UInt8 → Bool) {file : List UInt8}
    (h : ¬ magicBytes <+: file) : newProgramData accepts file = .error .badMagic := by
  rw [newProgramData, parseHeader_badMagic h]
  rfl

theorem newProgramData_unterminated (accepts : List UInt8 → Bool) {rest : List UInt8}
    (h : 0 ∉ rest) : newProgramData accepts (magicBytes ++ rest) = .error .pageTable := by
  obtain ⟨r, hheader, -, -, hrest⟩ :=
    parseHeader_spec (Reader.wf_opened (magicBytes ++ rest)) rfl rfl
  rw [newProgramData, hheader]
  show (parsePageTable accepts r >>= fun r ↦ .ok r.tell) = _
  rw [parsePageTable_unterminated accepts (by rwa [hrest])]
  rfl

/-- Behind the magic bytes there is no NUL, or a table up to the first one. -/
theorem exists_table (rest : List UInt8) :
    0 ∉ rest ∨ ∃ table rest', rest = table ++ 0 :: rest' ∧ 0 ∉ table := by
  by_cases h : (0 : UInt8) ∈ rest
  · exact .inr (List.eq_append_cons_of_mem h)
  · exact .inl h

/-! ### Any file -/

theorem FileLoads.loadFile_eq {clz4 : Clz4} {accepts : List UInt8 → Bool} {file : List UInt8}
    {r : Except GoPanic (List RawBlock)} (h : FileLoads clz4 accepts file r) :
    loadFile clz4 accepts file = r := by
  cases h with
  | badMagic h => rw [loadFile, newProgramData_badMagic accepts h]; rfl
  | unterminated h => rw [loadFile, newProgramData_unterminated accepts h]; rfl
  | refused htable h =>
    rw [loadFile, newProgramData_spec htable, h]
    rfl
  | @blocks table tail ps panic htable haccepts hfits hstops =>
    have hlen : 8 + table.length + 1 = (magicBytes ++ (table ++ [0])).length := by
      have h8 : magicBytes.length = 8 := rfl
      simp only [List.length_append, List.length_singleton, h8]
      omega
    have hdrop : (magicBytes ++ (table ++ 0 :: (frames 8 ps ++ tail))).drop
        (8 + table.length + 1) = frames 8 ps ++ tail := by
      have hsplit : magicBytes ++ (table ++ 0 :: (frames 8 ps ++ tail)) =
          (magicBytes ++ (table ++ [0])) ++ (frames 8 ps ++ tail) := by simp
      rw [hsplit, hlen, List.drop_left]
    rw [loadFile, newProgramData_spec htable, haccepts]
    exact readBlocks_frames_stops clz4 round1Buffer (GoSlice.cap_make ..) hdrop hfits hstops

theorem exists_fileLoads (clz4 : Clz4) (accepts : List UInt8 → Bool) (file : List UInt8) :
    ∃ r, FileLoads clz4 accepts file r := by
  by_cases hmagic : magicBytes <+: file
  · obtain ⟨rest, rfl⟩ := hmagic
    rcases exists_table rest with hnone | ⟨table, rest, rfl, htable⟩
    · exact ⟨_, .unterminated hnone⟩
    · cases haccepts : accepts table with
      | false => exact ⟨_, .refused htable haccepts⟩
      | true =>
        obtain ⟨ps, tail, panic, rfl, hfits, hstops⟩ := exists_frames_stops rest
        exact ⟨_, .blocks htable haccepts hfits hstops⟩
  · exact ⟨_, .badMagic hmagic⟩

/-- Every sequence of bytes loads to exactly what it says: the blocks of an accepted header and
whole frames, or the panic of the first place where it is no such file. -/
theorem loadFile_iff (clz4 : Clz4) (accepts : List UInt8 → Bool) (file : List UInt8)
    (r : Except GoPanic (List RawBlock)) :
    loadFile clz4 accepts file = r ↔ FileLoads clz4 accepts file r := by
  constructor
  · rintro rfl
    obtain ⟨r, hr⟩ := exists_fileLoads clz4 accepts file
    rw [hr.loadFile_eq]
    exact hr
  · exact FileLoads.loadFile_eq

end Mema
