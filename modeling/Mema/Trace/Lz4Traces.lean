import Mema.Lz4.RoundTrip
import Mema.Trace.CrossProducer

/-!
# Traces compressed by the LZ4 both producers carry

`mema_rtl.cpp:221–235` and `md_main.c:326–340` compress every block twice, each time into a
buffer of the bound's size. With `lz4.c` on both sides a loaded block is the flushed records,
then one record that may have been written over up to its second byte, and then zeroed ones.
-/

namespace Mema

open Bytes Framing Chunks Memory Lz4

/-- Each call is `LZ4_compress` into a buffer of the bound's size, whatever the buffer held. -/
def RunsCompress (lz : Lz4) : Prop :=
  ∀ bs : List UInt8, lz4CompressBound bs.length < intLimit →
    ∃ buffer compressedSize buffer', buffer.length = lz4CompressBound bs.length ∧
      lz4Compress bs buffer = .ok (compressedSize, buffer') ∧ lz bs = buffer'.take compressedSize

/-- Each call is `LZ4_uncompress_unknownOutputSize` into a slice's storage; a result that is no
error becomes the slice's length. -/
def RunsUncompress (clz4 : Clz4) : Prop :=
  ∀ (bs : List UInt8) (out : GoSlice) (n : Nat) (cells : List UInt8),
    lz4UncompressUnknownOutputSize bs out.cells = .ok ((n : Int), cells) →
      (clz4.uncompressUnknownOutputSize bs out).cells = cells ∧
        (clz4.uncompressUnknownOutputSize bs out).len = n

/-- A record that is zeroed from its third byte on. -/
def Slot.ZeroedPast2 (s : Slot) : Prop := s.bytes.drop 2 = List.replicate (recordSize - 2) 0

/-- A flushed block as `lz4.c` restores it in zeroed memory. -/
def Overshot (ss : List Slot) (records : List Record) : Prop :=
  ∃ p : Slot, p.ZeroedPast2 ∧
    records = ss ++ p :: List.replicate (expectedNrec - ss.length - 1) Slot.zero

/-- Both compression stages of a flushed block fit the viewer's buffers. -/
def FitsViewer (lz : Lz4) (ss : List Slot) : Prop :=
  (lz (Slot.bytesOf ss)).length ≤ viewerBufsize ∧ (payloadOf lz true ss).length ≤ viewerBufsize

/-! ### One stage -/

/-- What a compressed stream is, and what decompressing it does to a large enough slice. -/
theorem RunsCompress.spec {lz : Lz4} (hlz : RunsCompress lz) {bs : List UInt8}
    (hint : lz4CompressBound bs.length < intLimit) :
    (lz bs).length ≤ lz4CompressBound bs.length ∧
      ∀ out : List UInt8, bs.length ≤ out.length →
        ∃ out', lz4UncompressUnknownOutputSize (lz bs) out = .ok ((bs.length : Int), out') ∧
          bs <+: out' ∧ Within (bs.length + 2) out out' := by
  obtain ⟨buffer, size, buffer', hbuffer, hrun, hlz⟩ := hlz bs hint
  obtain ⟨result, b, hspec, hb⟩ := lz4Compress_spec hint (Nat.le_of_eq hbuffer.symm)
  rw [hrun] at hspec
  cases hspec
  have hlen := hb.length_le.2
  have hbs : bs.length < intLimit := by
    rw [lz4CompressBound] at hint
    omega
  rw [hlz]
  refine ⟨?_, ?_⟩
  · rw [List.length_take]
    exact (Nat.min_le_left _ _).trans hlen
  · intro out hfits
    obtain ⟨r, out', huncompress, hsize, hout⟩ := hb.uncompress hbs out
    rw [if_pos hfits] at hout
    obtain ⟨rfl, hpre, hkept⟩ := hout
    exact ⟨out', huncompress, hpre, hsize, hkept⟩

/-- A slice that a stream is decompressed into shows the bytes the stream was made of. -/
theorem RunsUncompress.view {lz : Lz4} {clz4 : Clz4} (hlz : RunsCompress lz)
    (hclz4 : RunsUncompress clz4) {bs : List UInt8}
    (hint : lz4CompressBound bs.length < intLimit) {out : GoSlice} (hfits : bs.length ≤ out.cap) :
    (clz4.uncompressUnknownOutputSize (lz bs) out).view = bs := by
  obtain ⟨cells, hrun, hpre, -⟩ := (hlz.spec hint).2 out.cells hfits
  obtain ⟨hcells, hlen⟩ := hclz4 _ _ _ _ hrun
  rw [GoSlice.view, hcells, hlen]
  exact (List.prefix_iff_eq_take.mp hpre).symm

/-! ### One block -/

/-- Zeroed memory in which up to two bytes were written is one such record and zeroed ones. -/
theorem ofBytes_zeroedPast2 {mem : List UInt8} {n : Nat} (hlen : mem.length = recordSize * (n + 1))
    (h : mem.drop 2 = List.replicate (recordSize * (n + 1) - 2) 0) :
    ∃ p : Slot, p.ZeroedPast2 ∧ Slot.ofBytes mem = p :: List.replicate n Slot.zero := by
  have hsize : recordSize = 56 := rfl
  have hsplit : mem.take recordSize ++ mem.drop recordSize = mem := List.take_append_drop _ _
  have htake : (mem.take recordSize).length = recordSize := List.length_take_of_le (by
    rw [hlen, Nat.mul_succ]
    exact Nat.le_add_left _ _)
  have hfirst : (mem.take recordSize).drop 2 = List.replicate (recordSize - 2) 0 := by
    rw [List.drop_take, h, List.take_replicate]
    congr 1
  have hrest : mem.drop recordSize = List.replicate (recordSize * n) 0 := by
    have htwo : recordSize = 2 + (recordSize - 2) := rfl
    rw [htwo, ← List.drop_drop, h, List.drop_replicate]
    congr 1
  refine ⟨⟨mem.take recordSize, htake⟩, hfirst, ?_⟩
  rw [← Slot.ofBytes_replicate, ← hrest]
  conv_lhs => rw [← hsplit]
  exact Slot.ofBytes_append ⟨mem.take recordSize, htake⟩ _

/-- A flushed block that fits decodes to its records, followed by cells that are zero from the
third byte on. -/
theorem decodeRecords_lz4 {lz : Lz4} {clz4 : Clz4} (hlz : RunsCompress lz)
    (hclz4 : RunsUncompress clz4) {ss : List Slot} {round1 : GoSlice}
    (hss : ss.length ≤ flushSize) (hfit : (lz (Slot.bytesOf ss)).length ≤ round1.cap) :
    Overshot ss (decodeRecords clz4 (payloadOf lz true ss) round1).1 ∧
      (decodeRecords clz4 (payloadOf lz true ss) round1).2.cap = round1.cap := by
  have hsize : recordSize = 56 := rfl
  have hflush : flushSize = 187244 := by decide
  have hnrec : expectedNrec = 187245 := by decide
  have hlimit : intLimit = 2147483648 := rfl
  have hbytes := Slot.length_bytesOf ss
  rw [hsize] at hbytes
  have hint : lz4CompressBound (Slot.bytesOf ss).length < intLimit := by
    rw [lz4CompressBound]
    omega
  obtain ⟨hlen, hdecode⟩ := hlz.spec hint
  have hint' : lz4CompressBound (lz (Slot.bytesOf ss)).length < intLimit := by
    rw [lz4CompressBound] at hlen ⊢
    omega
  have hcells : recordBytes.cells.length = 56 * 187245 := by
    rw [recordBytes, ← hsize, ← hnrec]
    exact GoSlice.cap_make ..
  obtain ⟨cells, hrun, ⟨tail, rfl⟩, hwithin⟩ := hdecode recordBytes.cells (by
    rw [hcells]
    omega)
  obtain ⟨hout, -⟩ := hclz4 _ _ _ _ hrun
  rw [decodeRecords, payloadOf, if_pos rfl]
  refine ⟨?_, clz4.cap_eq _ _⟩
  rw [hclz4.view hlz hint' hfit, hout]
  have hcount := hwithin.length
  rw [List.length_append, hcells, hbytes] at hcount
  have hzero : tail.drop 2 = List.replicate (recordSize * (expectedNrec - ss.length) - 2) 0 := by
    have hkept := hwithin.kept
    rw [← List.drop_drop, List.drop_left, recordBytes, GoSlice.make, List.drop_replicate,
      hbytes] at hkept
    rw [hkept, hsize, hnrec]
    congr 1
    omega
  have hmore : expectedNrec - ss.length = expectedNrec - ss.length - 1 + 1 := by omega
  obtain ⟨p, hp, hrecords⟩ := ofBytes_zeroedPast2
    (by rw [hsize]; omega : tail.length = recordSize * (expectedNrec - ss.length - 1 + 1))
    (by rw [← hmore]; exact hzero)
  exact ⟨p, hp, by rw [Slot.ofBytes_bytesOf, hrecords]⟩

/-- The most records that fit the viewer's buffers however badly they compress. -/
def surelyFits : Nat := 185785

/-- A block of no more records fits. -/
theorem RunsCompress.fitsViewer {lz : Lz4} (hlz : RunsCompress lz) {ss : List Slot}
    (h : ss.length ≤ surelyFits) : FitsViewer lz ss := by
  have hlimit : intLimit = 2147483648 := rfl
  have hv : viewerBufsize = 10485760 := by decide
  have hbytes : (Slot.bytesOf ss).length = 56 * ss.length := Slot.length_bytesOf ss
  rw [surelyFits] at h
  have hint : lz4CompressBound (Slot.bytesOf ss).length < intLimit := by
    rw [lz4CompressBound]
    omega
  have hone := (hlz.spec hint).1
  rw [lz4CompressBound, hbytes] at hone
  have hint' : lz4CompressBound (lz (Slot.bytesOf ss)).length < intLimit := by
    rw [lz4CompressBound]
    omega
  have htwo := (hlz.spec hint').1
  rw [lz4CompressBound] at htwo
  rw [FitsViewer, payloadOf, if_pos rfl]
  omega

/-! ### A file -/

theorem overshot_blocksOf {lz : Lz4} {clz4 : Clz4} (hlz : RunsCompress lz)
    (hclz4 : RunsUncompress clz4) {blocks : List (List Slot)}
    (hblocks : ∀ ss ∈ blocks, ss.length ≤ flushSize ∧ FitsViewer lz ss) (cursor : Nat)
    {round1 : GoSlice} (hcap : round1.cap = viewerBufsize) :
    List.Forall₂ (fun ss b ↦ Overshot ss b.records) blocks
      (blocksOf clz4 cursor round1 (blocks.map (payloadOf lz true))) := by
  induction blocks generalizing cursor round1 with
  | nil => exact .nil
  | cons ss blocks ih =>
    obtain ⟨hss, hone, -⟩ := hblocks ss (List.mem_cons_self ..)
    rw [← hcap] at hone
    obtain ⟨hrec, hcap'⟩ := decodeRecords_lz4 hlz hclz4 hss hone
    rw [List.map_cons, blocksOf]
    exact .cons hrec (ih (fun ts hts ↦ hblocks ts (List.mem_cons_of_mem _ hts)) _
      (hcap'.trans hcap))

/-- A header and the frames of flushed blocks that fit load, block by block. -/
theorem loadFile_lz4 {lz : Lz4} {clz4 : Clz4} (hlz : RunsCompress lz)
    (hclz4 : RunsUncompress clz4) {accepts : List UInt8 → Bool} {table : List UInt8}
    {blocks : List (List Slot)} (htable : 0 ∉ table) (haccepts : accepts table = true)
    (hsize : ∀ ss ∈ blocks, ss.length ≤ flushSize)
    (hfits : ∀ ss ∈ blocks, surelyFits < ss.length → FitsViewer lz ss) :
    ∃ loaded, loadFile clz4 accepts (magicBytes ++ (table ++ 0 :: framesOf lz true blocks)) =
        .ok loaded ∧
      List.Forall₂ (fun ss b ↦ Overshot ss b.records) blocks loaded := by
  have hcap : round1Buffer.cap = viewerBufsize := GoSlice.cap_make ..
  have hblocks : ∀ ss ∈ blocks, ss.length ≤ flushSize ∧ FitsViewer lz ss := by
    intro ss hss
    refine ⟨hsize ss hss, ?_⟩
    by_cases hlong : surelyFits < ss.length
    · exact hfits ss hss hlong
    · exact hlz.fitsViewer (Nat.le_of_not_lt hlong)
  have hpayloads : ∀ p ∈ blocks.map (payloadOf lz true), p.length ≤ viewerBufsize := by
    intro p hp
    obtain ⟨ss, hss, rfl⟩ := List.mem_map.mp hp
    exact (hblocks ss hss).2.2
  have hlt : ∀ p ∈ blocks.map (payloadOf lz true), p.length < 256 ^ 8 :=
    fun p hp ↦ Nat.lt_of_le_of_lt (hpayloads p hp) (by decide)
  have hload := loadFile_payloads clz4 accepts htable hlt
  rw [if_pos haccepts, if_pos hpayloads] at hload
  exact ⟨_, hload, overshot_blocksOf hlz hclz4 hblocks _ hcap⟩

/-! ### Both producers -/

/-- `LZ4_compress` into `calloc`ed memory. -/
def lz4Calloc : Lz4 := fun bs ↦
  (lz4Compress bs (List.replicate (lz4CompressBound bs.length) 0)).toOption.elim []
    fun result ↦ result.2.take result.1

/-- A slice after `n` bytes were written to its storage. -/
def GoSlice.filled (out : GoSlice) (cells : List UInt8) (n : Nat) : GoSlice :=
  if h : n ≤ cells.length ∧ cells.length = out.cap then ⟨cells, n, h.1⟩ else out

theorem GoSlice.cap_filled (out : GoSlice) (cells : List UInt8) (n : Nat) :
    (out.filled cells n).cap = out.cap := by
  unfold filled
  split
  · next h => exact h.2
  · rfl

/-- `LZ4_uncompress_unknownOutputSize` into a slice's storage. What a refused stream has written
before it is refused is not kept. -/
def lz4IntoSlice (bs : List UInt8) (out : GoSlice) : GoSlice :=
  (lz4UncompressUnknownOutputSize bs out.cells).toOption.elim out
    fun result ↦ if 0 ≤ result.1 then out.filled result.2 result.1.toNat else out

theorem cap_lz4IntoSlice (bs : List UInt8) (out : GoSlice) :
    (lz4IntoSlice bs out).cap = out.cap := by
  rw [lz4IntoSlice]
  generalize (lz4UncompressUnknownOutputSize bs out.cells).toOption = result
  cases result with
  | none => rfl
  | some result =>
    show (if 0 ≤ result.1 then out.filled result.2 result.1.toNat else out).cap = out.cap
    split
    · exact GoSlice.cap_filled ..
    · rfl

/-- The viewer's decompression by `lz4.c`. -/
def lz4Clz4 : Clz4 := ⟨lz4IntoSlice, cap_lz4IntoSlice⟩

theorem runsCompress_lz4Calloc : RunsCompress lz4Calloc := by
  intro bs hint
  have hsize : (List.replicate (lz4CompressBound bs.length) (0 : UInt8)).length =
      lz4CompressBound bs.length := List.length_replicate ..
  obtain ⟨⟨size, buffer'⟩, b, hrun, -⟩ := lz4Compress_spec hint (Nat.le_of_eq hsize.symm)
  refine ⟨_, size, buffer', hsize, hrun, ?_⟩
  rw [lz4Calloc, hrun]
  rfl

theorem runsUncompress_lz4Clz4 : RunsUncompress lz4Clz4 := by
  intro bs out n cells hrun
  obtain ⟨high, v, -, hends⟩ := uncompress_decodes bs out.cells
  rw [hrun] at hends
  have hfilled : n ≤ cells.length ∧ cells.length = out.cap := by
    generalize hr : (n : Int) = r at hends
    cases hends with
    | decoded hwithin hpre =>
      have hle := hpre.length_le
      exact ⟨by omega, hwithin.length⟩
    | refused hlen hpos hle => omega
  show (lz4IntoSlice bs out).cells = cells ∧ (lz4IntoSlice bs out).len = n
  have hslice : lz4IntoSlice bs out = ⟨cells, n, hfilled.1⟩ := by
    rw [lz4IntoSlice, hrun]
    show (if 0 ≤ (n : Int) then out.filled cells (n : Int).toNat else out) = _
    rw [if_pos (Int.natCast_nonneg n), Int.toNat_natCast, GoSlice.filled, dif_pos hfilled]
  rw [hslice]
  exact ⟨rfl, rfl⟩

/-! ### Streams that `lz4.c` restores exactly, and streams it refuses -/

/-- A stream of literals only. -/
def literalStream (bs : List UInt8) : List UInt8 := Block.encode ⟨[], bs⟩

/-- Literals are copied without touching a cell behind them. -/
theorem lz4Clz4_literalStream {bs : List UInt8} (hint : bs.length < intLimit) {out : GoSlice}
    (hfits : bs.length ≤ out.cap) :
    lz4Clz4.uncompressUnknownOutputSize (literalStream bs) out = out.overwrite bs hfits := by
  have hlen : out.cap = out.cells.length := rfl
  obtain ⟨high, v, hdecodes, hends⟩ := uncompress_decodes (literalStream bs) out.cells
  have hparse := @parseSequence_last out.cells.length 0 bs hint
  rw [if_neg (by omega)] at hparse
  obtain ⟨rfl, rfl⟩ := hdecodes.of_last hparse
  rw [List.nil_append] at hends
  show lz4IntoSlice (literalStream bs) out = _
  generalize hrun : lz4UncompressUnknownOutputSize (literalStream bs) out.cells = result at hends
  cases hends with
  | @decoded _ cells hwithin hpre =>
    have hcells : cells = store out.cells 0 bs := by
      obtain ⟨rest, rfl⟩ := hpre
      have hkept := hwithin.kept
      rw [List.drop_left] at hkept
      rw [store, List.take_zero, List.nil_append, Nat.zero_add, hkept]
    subst hcells
    have hfilled : bs.length ≤ (store out.cells 0 bs).length ∧
        (store out.cells 0 bs).length = out.cap := ⟨hfits.trans_eq hwithin.length.symm, hwithin.length⟩
    rw [lz4IntoSlice, hrun]
    show (if 0 ≤ (bs.length : Int) then out.filled _ (bs.length : Int).toNat else out) = _
    rw [if_pos (Int.natCast_nonneg _), Int.toNat_natCast, GoSlice.filled, dif_pos hfilled]
    rfl

/-- A slice is left alone when the stream is refused. -/
theorem lz4Clz4_refused {bs : List UInt8} {out : GoSlice}
    (h : ∀ high v, Decodes out.cap bs [] high v → ∃ unread, v = .refused unread) :
    lz4Clz4.uncompressUnknownOutputSize bs out = out := by
  obtain ⟨high, v, hdecodes, hends⟩ := uncompress_decodes bs out.cells
  obtain ⟨unread, rfl⟩ := h high v hdecodes
  show lz4IntoSlice bs out = _
  generalize hrun : lz4UncompressUnknownOutputSize bs out.cells = result at hends
  generalize hverdict : Verdict.refused unread = verdict at hends
  cases hends with
  | @refused pos cells hlen hpos hle =>
    rw [lz4IntoSlice, hrun]
    show (if 0 ≤ -(pos : Int) then out.filled cells (-(pos : Int)).toNat else out) = _
    exact if_neg (by omega)
  | decoded => cases hverdict
  | overflow => cases hverdict

/-- Where `round_1` is left with literals, the records they are decode, and zeroed ones. -/
theorem decodeRecords_literalStream {payload : List UInt8} {ss : List Slot} {round1 : GoSlice}
    (hss : ss.length ≤ expectedNrec)
    (hview : (lz4Clz4.uncompressUnknownOutputSize payload round1).view =
      literalStream (Slot.bytesOf ss)) :
    (decodeRecords lz4Clz4 payload round1).1 = padded ss := by
  have hsize : recordSize = 56 := rfl
  have hnrec : expectedNrec = 187245 := by decide
  have hlimit : intLimit = 2147483648 := rfl
  have hbytes := Slot.length_bytesOf ss
  refine decodeRecords_of_view hss hview (lz4Clz4_literalStream ?_ _)
  rw [hbytes, hsize]
  omega

/-- A first payload that is refused decodes to zeroed records. -/
theorem decodeRecords_refused {payload : List UInt8} {fuel : Nat}
    (h : refuses viewerBufsize fuel 0 payload = true) :
    (decodeRecords lz4Clz4 payload round1Buffer).1 = padded [] := by
  have hcap : round1Buffer.cap = viewerBufsize := GoSlice.cap_make ..
  refine @decodeRecords_literalStream payload [] round1Buffer (Nat.zero_le _) ?_
  rw [← hcap] at h
  rw [lz4Clz4_refused fun high v hdecodes ↦ hdecodes.of_refuses h]
  rfl

end Mema
