import Mema.Trace.NoLoss
import Mema.Viewer.Reader

/-!
# What the viewer loads of a finished trace

The writer flushes a full array with 187244 records and the viewer takes every block to hold
187245; the finalizer adds a last, shorter block. Each loaded block is a flushed block
followed by zeroed records, so a loaded trace is always longer than the logged one.
-/

namespace Mema

open Bytes Framing Chunks

/-- Write bytes into the front of a slice's storage and set its length. -/
def GoSlice.overwrite (out : GoSlice) (bs : List UInt8) (h : bs.length ≤ out.cap) : GoSlice where
  cells := store out.cells 0 bs
  len := bs.length
  fits := by
    rw [length_store (by rw [Nat.zero_add]; exact h)]
    exact h

/-- LZ4 and go-clz4: the worst-case size of a compressed buffer, and decompression of a
compressed buffer, which writes back the original bytes and touches nothing after them. -/
structure Codec where
  compress : Lz4
  clz4 : Clz4
  bound : ∀ bs, (compress bs).length ≤ bs.length + bs.length / 255 + 16
  inverts : ∀ bs out (h : bs.length ≤ out.cap),
    clz4.uncompressUnknownOutputSize (compress bs) out = out.overwrite bs h

/-! ### One block -/

theorem GoSlice.view_overwrite (out : GoSlice) (bs : List UInt8) (h : bs.length ≤ out.cap) :
    (out.overwrite bs h).view = bs := by
  have hself : load (store out.cells 0 bs) 0 bs.length = bs :=
    load_store_self (by rw [Nat.zero_add]; exact h) rfl
  rw [load, List.drop_zero] at hself
  exact hself

/-- The bytes of no more records than the viewer makes room for. -/
theorem length_bytesOf_le {ss : List Slot} (hss : ss.length ≤ expectedNrec) :
    (Slot.bytesOf ss).length ≤ recordBytes.cap := by
  rw [Slot.length_bytesOf, recordBytes, GoSlice.cap_make]
  exact Nat.mul_le_mul_left _ hss

/-- When the bytes left in `round_1` decompress to a block's bytes, the block's records followed
by zeroed ones are decoded. -/
theorem decodeRecords_of_view {clz4 : Clz4} {payload inner : List UInt8} {ss : List Slot}
    {round1 : GoSlice} (hss : ss.length ≤ expectedNrec)
    (hfirst : (clz4.uncompressUnknownOutputSize payload round1).view = inner)
    (hsecond : clz4.uncompressUnknownOutputSize inner recordBytes =
      recordBytes.overwrite (Slot.bytesOf ss) (length_bytesOf_le hss)) :
    (decodeRecords clz4 payload round1).1 =
      ss ++ List.replicate (expectedNrec - ss.length) Slot.zero := by
  rw [decodeRecords, hfirst, hsecond]
  have hzero : recordBytes.cells.drop (Slot.bytesOf ss).length =
      List.replicate (recordSize * (expectedNrec - ss.length)) 0 := by
    rw [recordBytes, GoSlice.make, List.drop_replicate, Slot.length_bytesOf, Nat.mul_sub]
  change Slot.ofBytes (store recordBytes.cells 0 (Slot.bytesOf ss)) = _
  rw [store, List.take_zero, List.nil_append, Nat.zero_add, hzero, Slot.ofBytes_bytesOf,
    Slot.ofBytes_replicate]

/-- A flushed block decodes to its records followed by zeroed ones. -/
theorem Codec.decodeRecords_payload (c : Codec) {ss : List Slot} {round1 : GoSlice}
    (hss : ss.length ≤ expectedNrec)
    (hfit : (c.compress (Slot.bytesOf ss)).length ≤ round1.cap) :
    (decodeRecords c.clz4 (payloadOf c.compress true ss) round1).1 =
        ss ++ List.replicate (expectedNrec - ss.length) Slot.zero ∧
      (decodeRecords c.clz4 (payloadOf c.compress true ss) round1).2.cap = round1.cap := by
  refine ⟨?_, c.clz4.cap_eq _ _⟩
  rw [payloadOf, if_pos rfl]
  apply decodeRecords_of_view hss _ (c.inverts _ _ (length_bytesOf_le hss))
  rw [c.inverts _ round1 hfit, GoSlice.view_overwrite]

/-! ### The file a run leaves behind -/

private theorem foldl_writeCounted {s : Shared} (maps : List (List UInt8))
    (h : s.out.isOpen = true) :
    (maps.foldl Shared.writeCounted s).out = ⟨true, s.out.bytes ++ maps.flatten⟩ := by
  induction maps generalizing s with
  | nil =>
    rw [List.flatten_nil, List.append_nil, ← h]
    rfl
  | cons m maps ih =>
    rw [List.foldl_cons, ih (by rw [s.isOpen_writeCounted, h]), Shared.writeCounted,
      OutFile.write_open h, List.flatten_cons, ← List.append_assoc]

theorem out_memaWriteHeader {start : Startup} {s : Shared} (h : s.out = ⟨true, []⟩) :
    (memaWriteHeader start s).out = ⟨true, magicBytes ++ (start.maps.flatten ++ [0])⟩ := by
  have h₁ : (s.writeCounted magicBytes).out = ⟨true, magicBytes⟩ := by
    rw [Shared.writeCounted, OutFile.write_open (by rw [h]), h]
    rfl
  have h₂ := foldl_writeCounted start.maps (s := s.writeCounted magicBytes) (by rw [h₁])
  rw [h₁] at h₂
  rw [memaWriteHeader, memaWriteInitialMaps, Shared.writeCounted]
  simp only [h₂]
  rw [OutFile.write_open rfl, List.append_assoc]

/-- The header of an opened trace: the magic bytes, the maps and a NUL. -/
theorem bytes_memaInitialize {start : Startup} (hname : start.flags.filename.isSome = true)
    (hfd : start.fd ≠ -1) :
    (memaInitialize start).shared.out.bytes = magicBytes ++ (start.maps.flatten ++ [0]) := by
  obtain ⟨r, hr, hrun⟩ := memaInitialize_opened hname
  have hout : r.shared.out = ⟨true, []⟩ := by
    rw [hr.out]
    simpa using hfd
  rw [hrun, out_memaWriteHeader hout]

theorem Switch.compression_after (s : Switch) (cs : List Call) :
    (s.after cs).flags.compression = s.flags.compression := by
  induction cs generalizing s with
  | nil => rfl
  | cons c cs ih =>
    rw [Switch.after_cons, ih]
    cases c with
    | functionEntry addr => unfold Switch.next Switch.entry; dsimp only; split <;> rfl
    | functionExit addr => unfold Switch.next Switch.exit; dsimp only; split <;> rfl
    | access addr size isWrite site => rfl
    | enable => rfl
    | disable => rfl

/-- A whole traced run with an open file and compression on. -/
structure Startup.Traces (start : Startup) : Prop where
  named : start.flags.filename.isSome = true
  opened : start.fd ≠ -1
  compressed : start.flags.compression = true
  text : 0 ∉ start.maps.flatten

/-- A finished run leaves the header and one frame for each flushed block: full blocks of
`flushSize` records and a last, shorter one. -/
theorem finished_file (lz : Lz4) {start : Startup} (hname : start.flags.filename.isSome = true)
    (hfd : start.fd ≠ -1) (cs : List Call) :
    ∃ r r' log, runCalls lz (memaInitialize start) cs =
        .ok (r, (memaInitialize start).switch.records cs) ∧
      memaFinalize lz r = .ok r' ∧ Log.Filled flushSize log ∧
      List.Forall₂ (Slot.Holds Slot.readback) log.contents
        ((memaInitialize start).switch.records cs) ∧
      r'.shared.out.bytes = magicBytes ++
        (start.maps.flatten ++ 0 :: framesOf lz start.flags.compression log.cut.done) := by
  have htraced := memaInitialize_traced lz hname hfd
  obtain ⟨r, hr, ⟨log, ht, hf⟩, hs⟩ := (maintained_traced lz _).run
    ⟨Log.empty, htraced, Log.filled_empty (by decide)⟩ cs
  rw [List.nil_append] at ht
  obtain ⟨r', hr', -, hb, -⟩ := memaFinalize_spec ht
  have hcomp : r.shared.flags.compression = start.flags.compression := by
    have hsw := congrArg (fun s : Switch ↦ s.flags.compression) hs
    simp only [Switch.compression_after, compression_memaInitialize] at hsw
    exact hsw
  refine ⟨r, r', log, hr, hr', hf, ht.kept.holds, ?_⟩
  rw [hb, hcomp, bytes_memaInitialize hname hfd, List.append_assoc, List.append_assoc]
  rfl

/-- The same with compression on. -/
theorem finished_run (c : Codec) {start : Startup} (h : start.Traces) (cs : List Call) :
    ∃ r r' log, runCalls c.compress (memaInitialize start) cs =
        .ok (r, (memaInitialize start).switch.records cs) ∧
      memaFinalize c.compress r = .ok r' ∧ Log.Filled flushSize log ∧
      List.Forall₂ (Slot.Holds Slot.readback) log.contents
        ((memaInitialize start).switch.records cs) ∧
      r'.shared.out.bytes =
        magicBytes ++ (start.maps.flatten ++ 0 :: framesOf c.compress true log.cut.done) := by
  have hfile := finished_file c.compress h.named h.opened cs
  rw [h.compressed] at hfile
  exact hfile

/-! ### Loading it -/

/-- What a header and whole frames load to: when a payload outgrows the input buffer the viewer
panics, otherwise there is one block for each frame. -/
theorem loadFile_payloads (clz4 : Clz4) (accepts : List UInt8 → Bool) {table : List UInt8}
    {ps : List (List UInt8)} (htable : 0 ∉ table) (hlt : ∀ p ∈ ps, p.length < 256 ^ 8) :
    loadFile clz4 accepts (magicBytes ++ (table ++ 0 :: frames 8 ps)) =
      if accepts table then
        if ∀ p ∈ ps, p.length ≤ viewerBufsize then
          .ok (blocksOf clz4 (8 + table.length + 1) round1Buffer ps)
        else .error .sliceBounds
      else .error .pageTable := by
  rw [loadFile, newProgramData_spec htable]
  cases accepts table with
  | false => rfl
  | true =>
    have hdrop : (magicBytes ++ (table ++ 0 :: frames 8 ps)).drop (8 + table.length + 1) =
        frames 8 ps := by
      have hsplit : magicBytes ++ (table ++ 0 :: frames 8 ps) =
          (magicBytes ++ (table ++ [0])) ++ frames 8 ps := by simp
      have hlen : 8 + table.length + 1 = (magicBytes ++ (table ++ [0])).length := by
        have h8 : magicBytes.length = 8 := rfl
        simp only [List.length_append, List.length_singleton, h8]
        omega
      rw [hsplit, hlen, List.drop_left]
    have hread := readBlocks_frames clz4 inputBuffer round1Buffer hdrop hlt
    rw [inputBuffer, GoSlice.cap_make] at hread
    simp only [bind, Except.bind, ↓reduceIte]
    exact hread

/-- What the frames of a finished run load to. -/
theorem loadFile_frames (c : Codec) (accepts : List UInt8 → Bool) {table : List UInt8}
    {blocks : List (List Slot)} (htable : 0 ∉ table)
    (hsize : ∀ ss ∈ blocks, ss.length ≤ flushSize) :
    loadFile c.clz4 accepts (magicBytes ++ (table ++ 0 :: framesOf c.compress true blocks)) =
      if accepts table then
        if ∀ p ∈ blocks.map (payloadOf c.compress true), p.length ≤ viewerBufsize then
          .ok (blocksOf c.clz4 (8 + table.length + 1) round1Buffer
            (blocks.map (payloadOf c.compress true)))
        else .error .sliceBounds
      else .error .pageTable := by
  apply loadFile_payloads c.clz4 accepts htable
  intro p hp
  obtain ⟨ss, hss, rfl⟩ := List.mem_map.mp hp
  have h₁ := c.bound (Slot.bytesOf ss)
  have h₂ := c.bound (c.compress (Slot.bytesOf ss))
  have h₃ := hsize ss hss
  have hk : flushSize = 187244 := by decide
  have hr : recordSize = 56 := rfl
  rw [Slot.length_bytesOf, hr] at h₁
  rw [payloadOf, if_pos rfl]
  omega

/-- The records of all loaded blocks, in file order. -/
def loadedRecords (blocks : List RawBlock) : List Record :=
  blocks.flatMap fun b ↦ b.records.take b.nrecords

theorem length_loadedRecords (clz4 : Clz4) (cursor : Nat) (round1 : GoSlice)
    (ps : List (List UInt8)) :
    (loadedRecords (blocksOf clz4 cursor round1 ps)).length = expectedNrec * ps.length := by
  have hsum : ∀ bs : List RawBlock,
      (∀ b ∈ bs, b.records.length = expectedNrec ∧ b.nrecords = expectedNrec) →
      (loadedRecords bs).length = expectedNrec * bs.length := by
    intro bs hbs
    induction bs with
    | nil => rfl
    | cons b bs ih =>
      have hc : loadedRecords (b :: bs) = b.records.take b.nrecords ++ loadedRecords bs := rfl
      obtain ⟨hrec, hn⟩ := hbs b (by simp)
      rw [hc, List.length_append, ih fun b hb ↦ hbs b (by simp [hb]), List.length_take, hrec, hn,
        Nat.min_self, List.length_cons]
      ring
  rw [hsum _ (nrecords_blocksOf clz4 cursor round1 ps), length_blocksOf]

/-- Both compression stages of a flushed block fit the viewer's buffers. -/
def Codec.Fits (c : Codec) (ss : List Slot) : Prop :=
  (c.compress (Slot.bytesOf ss)).length ≤ viewerBufsize ∧
    (payloadOf c.compress true ss).length ≤ viewerBufsize

/-- A flushed block as the viewer sees it: its records, then zeroed ones. -/
def padded (ss : List Slot) : List Record :=
  ss ++ List.replicate (expectedNrec - ss.length) Slot.zero

theorem map_records_blocksOf (c : Codec) {blocks : List (List Slot)}
    (hfit : ∀ ss ∈ blocks, ss.length ≤ expectedNrec ∧ c.Fits ss) (cursor : Nat)
    {round1 : GoSlice} (hcap : round1.cap = viewerBufsize) :
    (blocksOf c.clz4 cursor round1 (blocks.map (payloadOf c.compress true))).map
      RawBlock.records = blocks.map padded := by
  induction blocks generalizing cursor round1 with
  | nil => rfl
  | cons ss blocks ih =>
    obtain ⟨hss, hone, -⟩ := hfit ss (by simp)
    obtain ⟨hrec, hcap'⟩ := c.decodeRecords_payload hss (by rw [hcap]; exact hone)
    rw [List.map_cons, blocksOf, List.map_cons, List.map_cons,
      ih (fun ts hts ↦ hfit ts (by simp [hts])) _ (hcap'.trans hcap), createNewBlock]
    exact congrArg (· :: _) hrec

/-- Blocks that fit load, each as its own records followed by zeroed ones. -/
theorem loadFile_padded (c : Codec) {accepts : List UInt8 → Bool} {table : List UInt8}
    {blocks : List (List Slot)} (htable : 0 ∉ table) (haccepts : accepts table = true)
    (hfit : ∀ ss ∈ blocks, ss.length ≤ flushSize ∧ c.Fits ss) :
    ∃ loaded, loadFile c.clz4 accepts
        (magicBytes ++ (table ++ 0 :: framesOf c.compress true blocks)) = .ok loaded ∧
      loaded.map RawBlock.records = blocks.map padded ∧
      ∀ b ∈ loaded, b.records.length = expectedNrec ∧ b.nrecords = expectedNrec := by
  have hk : flushSize ≤ expectedNrec := by decide
  have hcap : round1Buffer.cap = viewerBufsize := GoSlice.cap_make ..
  refine ⟨_, ?_, map_records_blocksOf c (fun ss hss ↦ ⟨(hfit ss hss).1.trans hk,
    (hfit ss hss).2⟩) (8 + table.length + 1) hcap,
    nrecords_blocksOf _ _ _ _⟩
  rw [loadFile_frames c accepts htable fun ss hss ↦ (hfit ss hss).1, if_pos haccepts, if_pos]
  intro p hp
  obtain ⟨ss, hss, rfl⟩ := List.mem_map.mp hp
  exact (hfit ss hss).2.2

/-- Every finished run that loads at all loads more records than were logged. -/
theorem loaded_longer (c : Codec) (accepts : List UInt8 → Bool) {start : Startup}
    (h : start.Traces) {cs : List Call} {r r' : Runtime} {es : List Logged}
    (hr : runCalls c.compress (memaInitialize start) cs = .ok (r, es))
    (hr' : memaFinalize c.compress r = .ok r') {blocks : List RawBlock}
    (hload : loadFile c.clz4 accepts r'.shared.out.bytes = .ok blocks) :
    (loadedRecords blocks).length = expectedNrec * (es.length / flushSize + 1) := by
  obtain ⟨r₁, r₁', log, hr₁, hr₁', hf, hh, hb⟩ := finished_run c h cs
  generalize (memaInitialize start).switch.records cs = es₁ at hr₁ hh
  cases hr.symm.trans hr₁
  cases hr'.symm.trans hr₁'
  rw [hb, loadFile_frames c accepts h.text fun _ ↦ hf.length_le_of_mem_cut] at hload
  have hlen : log.cut.done.length = es.length / flushSize + 1 := by
    rw [Log.cut, List.length_append, List.length_singleton, hf.length_done, hh.length_eq]
  split at hload
  · split at hload
    · cases hload
      rw [length_loadedRecords, List.length_map, hlen]
    · cases hload
  · cases hload

/-- A loaded trace never has as many records as were logged. -/
theorem loaded_ne (c : Codec) (accepts : List UInt8 → Bool) {start : Startup}
    (h : start.Traces) {cs : List Call} {r r' : Runtime} {es : List Logged}
    (hr : runCalls c.compress (memaInitialize start) cs = .ok (r, es))
    (hr' : memaFinalize c.compress r = .ok r') {blocks : List RawBlock}
    (hload : loadFile c.clz4 accepts r'.shared.out.bytes = .ok blocks) :
    (loadedRecords blocks).length ≠ es.length := by
  have hlong := loaded_longer c accepts h hr hr' hload
  have hk : flushSize = 187244 := by decide
  have he : expectedNrec = 187245 := by decide
  rw [hk, he] at hlong
  omega

/-! ### The round trip -/

/-- Logging, finalizing and loading gives back exactly the logged records. -/
def RoundTrips (c : Codec) (accepts : List UInt8 → Bool) (start : Startup) (cs : List Call) :
    Prop :=
  ∃ r es r' blocks, runCalls c.compress (memaInitialize start) cs = .ok (r, es) ∧
    memaFinalize c.compress r = .ok r' ∧
    loadFile c.clz4 accepts r'.shared.out.bytes = .ok blocks ∧
    (loadedRecords blocks).map Slot.readback = es.map some

/-- No trace round-trips: every loaded block is longer than what was flushed into it. -/
theorem not_roundTrips (c : Codec) (accepts : List UInt8 → Bool) (start : Startup)
    (h : start.Traces) (cs : List Call) : ¬ RoundTrips c accepts start cs := by
  rintro ⟨r, es, r', blocks, hr, hr', hload, heq⟩
  apply loaded_ne c accepts h hr hr' hload
  simpa using congrArg List.length heq

/-- Decompression of stored bytes: a copy, when there is room for it. -/
def GoSlice.unstore (bs : List UInt8) (out : GoSlice) : GoSlice :=
  if h : bs.length ≤ out.cap then out.overwrite bs h else out

theorem GoSlice.cap_unstore (bs : List UInt8) (out : GoSlice) :
    (GoSlice.unstore bs out).cap = out.cap := by
  unfold unstore
  split
  · next h =>
    rw [cap, overwrite, length_store (by rw [Nat.zero_add]; exact h)]
    rfl
  · rfl

theorem GoSlice.unstore_of_le (bs : List UInt8) (out : GoSlice) (h : bs.length ≤ out.cap) :
    GoSlice.unstore bs out = out.overwrite bs h :=
  dif_pos h

private theorem length_stored (bs : List UInt8) :
    (id bs).length ≤ bs.length + bs.length / 255 + 16 := by
  rw [id]
  omega

/-- A codec that stores its input. -/
def Codec.stored : Codec where
  compress := id
  clz4 := ⟨GoSlice.unstore, GoSlice.cap_unstore⟩
  bound := length_stored
  inverts := GoSlice.unstore_of_le

theorem Startup.toFile_traces : Startup.toFile.Traces :=
  ⟨rfl, by decide, rfl, by decide⟩

/-- One logged function entry is loaded with 187244 invented records behind it. -/
theorem one_entry_not_roundTrips :
    ¬ RoundTrips Codec.stored (fun _ ↦ true) Startup.toFile [.functionEntry 16] := by
  rintro ⟨r, es, r', blocks, hr, hr', hload, heq⟩
  apply loaded_ne Codec.stored _ Startup.toFile_traces hr hr' hload
  simpa using congrArg List.length heq

/-- The same for a call and a write in it. -/
theorem not_roundTrips_call :
    ¬ RoundTrips Codec.stored (fun _ ↦ true) Startup.toFile
      [.functionEntry 16, .access 4096 32 true ⟨0, 1, 2, 3⟩, .functionExit 16] :=
  not_roundTrips Codec.stored _ Startup.toFile Startup.toFile_traces _

end Mema
