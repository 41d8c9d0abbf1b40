import Mema.Lib.Buffered
import Mema.Lib.Framing
import Mema.Runtime.Hooks

/-!
# Reading a trace file

`memaviz/data.go:28–69,113–201`: the header and page table behind a buffered reader, the
descriptor sought back to the first frame, and the block loop with its two shared buffers.
-/

namespace Mema

open Bytes Framing Buffered

/-- Ways the viewer panics. -/
inductive GoPanic
  | badMagic
  | pageTable
  | unexpectedEOF
  | sliceBounds
  | shortBlock
  | nilAssertion
  | indexOutOfRange
  | notMatching
  | divideByZero
  | unexpectedRecordType
  | unexpectedX
  | readBlockFailed
  deriving DecidableEq, Repr

/-- A computation that succeeds succeeded at each of its steps. -/
theorem ok_of_bind {α β : Type} {x : Except GoPanic α} {f : α → Except GoPanic β} {b : β}
    (h : x >>= f = .ok b) : ∃ a, x = .ok a ∧ f a = .ok b := by
  cases x with
  | error p => cases h
  | ok a => exact ⟨a, rfl, h⟩

/-- A byte slice: the cells up to its capacity, and its length. -/
structure GoSlice where
  cells : List UInt8
  len : Nat
  fits : len ≤ cells.length

namespace GoSlice

/-- `make([]byte, len, cap)`. -/
def make (len cap : Nat) (h : len ≤ cap) : GoSlice := ⟨List.replicate cap 0, len, by simpa using h⟩

/-- The bytes below the length. -/
def view (s : GoSlice) : List UInt8 := s.cells.take s.len

/-- The capacity. -/
def cap (s : GoSlice) : Nat := s.cells.length

end GoSlice

/-- `clz4.UncompressUnknownOutputSize`: decompress into a slice's storage and set its length.
Errors are dropped by every caller. The storage itself is never reallocated. -/
structure Clz4 where
  uncompressUnknownOutputSize : List UInt8 → GoSlice → GoSlice
  cap_eq : ∀ bs out, (uncompressUnknownOutputSize bs out).cap = out.cap

/-! ### Header and page table -/

/-- Size of the `bufio` reader and of the block buffers. -/
def viewerBufsize : Nat := 10 * 1024 * 1024

/-- `ParseHeader`, `data.go:63–69`. -/
def parseHeader (r : Reader UInt8) : Except GoPanic (Reader UInt8) :=
  let (magicBuf, r) := r.read viewerBufsize 8
  if magicBuf = magicBytes then .ok r else .error .badMagic

/-- `ParsePageTable`, `data.go:71–109`, up to its NUL; `accepts` is the parse of the lines. -/
def parsePageTable (accepts : List UInt8 → Bool) (r : Reader UInt8) :
    Except GoPanic (Reader UInt8) :=
  match r.readBytes viewerBufsize 0 with
  | none => .error .pageTable
  | some (pageTableBytes, r) =>
    if accepts pageTableBytes.dropLast then .ok r else .error .pageTable

/-- `NewProgramData`, `data.go:28–61`: where the descriptor stands when the block loop is
started, after the buffered bytes have been un-read. -/
def newProgramData (accepts : List UInt8 → Bool) (file : List UInt8) : Except GoPanic Nat := do
  let r ← parseHeader (Reader.opened file)
  let r ← parsePageTable accepts r
  return r.tell

/-! ### Blocks -/

/-- `read_block`, `data.go:154–179`: nothing at a clean end of file, else the block in
`input`. A negative size fails the slice bound like one beyond the capacity. -/
def readBlock (file : List UInt8) (cursor : Nat) (input : GoSlice) :
    Except GoPanic (Option (Nat × GoSlice)) :=
  let head := load file cursor 8
  if head.length = 0 then .ok none
  else if head.length < 8 then .error .unexpectedEOF
  else
    let blockSize := leNat head
    let body := load file (cursor + 8) blockSize
    if hcap : blockSize ≤ input.cap then
      if hread : body.length = blockSize then
        .ok (some (cursor + 8 + blockSize, {
          cells := store input.cells 0 body
          len := blockSize
          fits := by
            rw [length_store (by rw [hread, Nat.zero_add]; exact hcap)]
            exact hcap }))
      else .error .shortBlock
    else .error .sliceBounds

/-- `exected_nrec`. -/
def expectedNrec : Nat := 10 * 1024 * 1024 / 56

/-- `block.records.AsBytes()` of freshly made records. -/
def recordBytes : GoSlice :=
  GoSlice.make (recordSize * expectedNrec) (recordSize * expectedNrec) (Nat.le_refl _)

/-- `decode_records`, `data.go:181–193`: the records, and `round_1` as it is left. -/
def decodeRecords (clz4 : Clz4) (input : List UInt8) (round1 : GoSlice) :
    List Record × GoSlice :=
  let round1 := clz4.uncompressUnknownOutputSize input round1
  (Slot.ofBytes (clz4.uncompressUnknownOutputSize round1.view recordBytes).cells, round1)

/-- The buffers of `ParseBlocks`, `data.go:118–119`. -/
def inputBuffer : GoSlice := GoSlice.make 0 viewerBufsize (Nat.zero_le _)
def round1Buffer : GoSlice := GoSlice.make 1 viewerBufsize (by decide)

/-- A block as `create_new_block` hands it on. -/
structure RawBlock where
  fileOffset : Nat
  records : List Record
  nrecords : Nat

/-- `create_new_block`, `data.go:195–203`. -/
def createNewBlock (blockOffset : Nat) (records : List Record) : RawBlock :=
  ⟨blockOffset, records, records.length⟩

/-- A block read moves the descriptor forward, inside the file. -/
theorem readBlock_lt {file : List UInt8} {cursor cursor' : Nat} {input input' : GoSlice}
    (h : readBlock file cursor input = .ok (some (cursor', input'))) :
    cursor < cursor' ∧ cursor' ≤ file.length := by
  unfold readBlock at h
  dsimp only at h
  split at h
  · cases h
  · split at h
    · cases h
    · next hne hlt =>
      split at h
      · split at h
        · next hread =>
          cases h
          simp only [load, List.length_take, List.length_drop] at hlt hread ⊢
          omega
        · cases h
      · cases h

/-- The block loop of `ParseBlocks`, `data.go:229–240`, without detail requests: the blocks
handed to the consumer. -/
def readBlocks (clz4 : Clz4) (file : List UInt8) (cursor : Nat) (input round1 : GoSlice) :
    Except GoPanic (List RawBlock) :=
  match _hread : readBlock file cursor input with
  | .error p => .error p
  | .ok none => .ok []
  | .ok (some (cursor', input)) =>
    let (records, round1) := decodeRecords clz4 input.view round1
    (readBlocks clz4 file cursor' input round1).map (createNewBlock cursor records :: ·)
termination_by file.length - cursor
decreasing_by
  have := readBlock_lt _hread
  omega

/-- Every block handed on when a file is loaded. -/
def loadFile (clz4 : Clz4) (accepts : List UInt8 → Bool) (file : List UInt8) :
    Except GoPanic (List RawBlock) := do
  let cursor ← newProgramData accepts file
  readBlocks clz4 file cursor inputBuffer round1Buffer

/-! ### The header -/

theorem parseHeader_spec {r : Reader UInt8} {xs : List UInt8} (h : r.WF)
    (hempty : r.buffered = []) (hr : r.rest = magicBytes ++ xs) :
    ∃ r', parseHeader r = .ok r' ∧ r'.WF ∧ r'.file = r.file ∧ r'.rest = xs := by
  have h8 : 8 ≤ r.rest.length := by
    rw [hr, List.length_append]
    exact Nat.le_add_right 8 _
  obtain ⟨hread, hwf, hfile, hrest⟩ := Reader.read_spec viewerBufsize h hempty
    (by decide) h8
  rw [hr] at hread hrest
  exact ⟨(r.read viewerBufsize 8).2, if_pos hread, hwf, hfile, hrest⟩

theorem parsePageTable_spec (accepts : List UInt8 → Bool) {r : Reader UInt8}
    {table rest : List UInt8} (h : r.WF) (htable : 0 ∉ table) (hr : r.rest = table ++ 0 :: rest) :
    ∃ r', parsePageTable accepts r = (if accepts table then .ok r' else .error .pageTable) ∧
      r'.WF ∧ r'.file = r.file ∧ r'.rest = rest := by
  obtain ⟨r', hread, hwf, hfile, hrest⟩ := Reader.readBytes_spec viewerBufsize
    (by decide) h htable hr
  refine ⟨r', ?_, hwf, hfile, hrest⟩
  simp only [parsePageTable, hread, List.dropLast_concat]

/-- A file that begins with the magic bytes and an acceptable NUL-terminated page table is
opened at the byte after the NUL. -/
theorem newProgramData_spec {accepts : List UInt8 → Bool} {table rest : List UInt8}
    (htable : 0 ∉ table) :
    newProgramData accepts (magicBytes ++ (table ++ 0 :: rest)) =
      if accepts table then .ok (8 + table.length + 1) else .error .pageTable := by
  obtain ⟨r₁, hheader, hwf₁, hfile₁, hrest₁⟩ :=
    parseHeader_spec (Reader.wf_opened (magicBytes ++ (table ++ 0 :: rest))) rfl rfl
  obtain ⟨r₂, hpages, hwf₂, hfile₂, hrest₂⟩ := parsePageTable_spec accepts hwf₁
    htable hrest₁
  have htell : r₂.tell = 8 + table.length + 1 := by
    have ht := hwf₂.tell_eq
    have h8 : magicBytes.length = 8 := rfl
    rw [hrest₂, hfile₂, hfile₁] at ht
    simp only [Reader.opened, List.length_append, List.length_cons, h8] at ht
    omega
  simp only [newProgramData, hheader, hpages, bind, Except.bind]
  cases accepts table with
  | true => exact congrArg Except.ok htell
  | false => rfl

/-! ### Frames -/

@[simp] theorem GoSlice.cap_make (len cap : Nat) (h : len ≤ cap) : (make len cap h).cap = cap := by
  simp [GoSlice.cap, make]

/-- At a clean end of file no block is read. -/
theorem readBlock_eof {file : List UInt8} {cursor : Nat} (input : GoSlice)
    (h : file.drop cursor = []) : readBlock file cursor input = .ok none := by
  simp [readBlock, load, h]

/-- A whole frame that fits the input buffer is read exactly, past its end. -/
theorem readBlock_frame {file : List UInt8} {cursor : Nat} {p rest : List UInt8}
    {input : GoSlice} (h : file.drop cursor = frame 8 p ++ rest) (hcap : p.length ≤ input.cap)
    (hlt : p.length < 256 ^ 8) :
    ∃ input', readBlock file cursor input = .ok (some (cursor + 8 + p.length, input')) ∧
      input'.view = p ∧ input'.cap = input.cap := by
  have hhead : load file cursor 8 = leBytes 8 p.length := by rw [load, h, take_frame]
  have hbody : load file (cursor + 8) p.length = p := by
    rw [load, ← List.drop_drop, h, drop_frame, List.take_left]
  have hfits : 0 + p.length ≤ input.cells.length := by
    rw [Nat.zero_add]
    exact hcap
  simp only [readBlock, hhead, length_leBytes, leNat_leBytes_of_lt hlt, hbody]
  rw [if_neg (by decide), if_neg (by decide), dif_pos hcap, dif_pos trivial]
  refine ⟨_, rfl, ?_, ?_⟩
  · have hself := load_store_self hfits rfl
    rw [load, List.drop_zero] at hself
    exact hself
  · rw [GoSlice.cap, length_store hfits]
    rfl

/-- A frame longer than the input buffer is a slice-bounds panic. -/
theorem readBlock_overflow {file : List UInt8} {cursor : Nat} {p rest : List UInt8}
    {input : GoSlice} (h : file.drop cursor = frame 8 p ++ rest) (hcap : input.cap < p.length)
    (hlt : p.length < 256 ^ 8) : readBlock file cursor input = .error .sliceBounds := by
  have hhead : load file cursor 8 = leBytes 8 p.length := by rw [load, h, take_frame]
  simp only [readBlock, hhead, length_leBytes, leNat_leBytes_of_lt hlt]
  rw [if_neg (by decide), if_neg (by decide), dif_neg (by omega)]

/-- However a block decodes, the viewer takes it to hold the same number of records. -/
theorem length_decodeRecords (clz4 : Clz4) (input : List UInt8) (round1 : GoSlice) :
    (decodeRecords clz4 input round1).1.length = expectedNrec := by
  have hcap := clz4.cap_eq (clz4.uncompressUnknownOutputSize input round1).view recordBytes
  rw [recordBytes, GoSlice.cap_make] at hcap
  rw [decodeRecords, Slot.length_ofBytes, recordBytes]
  rw [GoSlice.cap] at hcap
  rw [hcap]
  decide

/-- The blocks of a framed file: one for each frame, decoded in turn. -/
def blocksOf (clz4 : Clz4) : Nat → GoSlice → List (List UInt8) → List RawBlock
  | _, _, [] => []
  | cursor, round1, p :: ps =>
    createNewBlock cursor (decodeRecords clz4 p round1).1 ::
      blocksOf clz4 (cursor + 8 + p.length) (decodeRecords clz4 p round1).2 ps

/-- The block loop hands on one block for each frame. -/
theorem readBlocks_frames (clz4 : Clz4) {file : List UInt8} {cursor : Nat}
    {ps : List (List UInt8)} (input round1 : GoSlice)
    (h : file.drop cursor = frames 8 ps) (hlt : ∀ p ∈ ps, p.length < 256 ^ 8) :
    readBlocks clz4 file cursor input round1 =
      if ∀ p ∈ ps, p.length ≤ input.cap then .ok (blocksOf clz4 cursor round1 ps)
      else .error .sliceBounds := by
  induction ps generalizing cursor input round1 with
  | nil =>
    rw [readBlocks, readBlock_eof input h]
    simp [blocksOf]
  | cons p ps ih =>
    rw [frames_cons] at h
    have hp := hlt p (by simp)
    by_cases hcap : p.length ≤ input.cap
    · obtain ⟨input', hread, hview, hcap'⟩ := readBlock_frame h hcap hp
      have hdrop : file.drop (cursor + 8 + p.length) = frames 8 ps := by
        rw [Nat.add_assoc, ← List.drop_drop, h, ← length_frame, List.drop_left]
      have hrec := ih input' (decodeRecords clz4 p round1).2 hdrop
        fun q hq ↦ hlt q (by simp [hq])
      rw [readBlocks, hread]
      simp only [hview, hrec, hcap', List.mem_cons, forall_eq_or_imp, hcap, true_and]
      split
      · rfl
      · rfl
    · rw [readBlocks, readBlock_overflow h (by omega) hp, if_neg]
      intro hall
      exact hcap (hall p (by simp))

@[simp] theorem length_blocksOf (clz4 : Clz4) (cursor : Nat) (round1 : GoSlice)
    (ps : List (List UInt8)) : (blocksOf clz4 cursor round1 ps).length = ps.length := by
  induction ps generalizing cursor round1 with
  | nil => rfl
  | cons p ps ih => rw [blocksOf, List.length_cons, ih, List.length_cons]

/-- Every block holds the expected number of records. -/
theorem nrecords_blocksOf (clz4 : Clz4) (cursor : Nat) (round1 : GoSlice)
    (ps : List (List UInt8)) :
    ∀ b ∈ blocksOf clz4 cursor round1 ps,
      b.records.length = expectedNrec ∧ b.nrecords = expectedNrec := by
  induction ps generalizing cursor round1 with
  | nil => simp [blocksOf]
  | cons p ps ih =>
    intro b hb
    rw [blocksOf] at hb
    rcases List.mem_cons.mp hb with rfl | hb
    · exact ⟨length_decodeRecords .., length_decodeRecords ..⟩
    · exact ih _ _ b hb

end Mema
