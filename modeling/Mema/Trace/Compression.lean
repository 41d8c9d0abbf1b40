import Mema.Trace.Lz4Traces

/-!
# Traces written with and without compression

`mema_rtl.cpp:221–279` flushes a block either compressed twice or as it is, and
`data.go:154–190` decompresses every block twice: a frame does not say which branch wrote it.
-/

namespace Mema

open Bytes Framing Chunks Lz4

/-- The same start-up with the flag `compression` given. -/
def Startup.compressing (start : Startup) (on : Bool) : Startup :=
  { start with flags := { start.flags with compression := on } }

/-- The bytes a finished run leaves in its file. -/
def Startup.Leaves (start : Startup) (lz : Lz4) (cs : List Call) (file : List UInt8) : Prop :=
  ∃ r es r', runCalls lz (memaInitialize start) cs = .ok (r, es) ∧
    memaFinalize lz r = .ok r' ∧ r'.shared.out.bytes = file

/-- The records of each loaded block, or how loading fails. -/
def loadedBlocks (clz4 : Clz4) (accepts : List UInt8 → Bool) (file : List UInt8) :
    Except GoPanic (List (List Record)) :=
  (loadFile clz4 accepts file).map (List.map RawBlock.records)

/-- With and without compression, a run's file loads to the same blocks. -/
def LoadsAlike (lz : Lz4) (clz4 : Clz4) (accepts : List UInt8 → Bool) (start : Startup)
    (cs : List Call) : Prop :=
  ∀ on off, (start.compressing true).Leaves lz cs on → (start.compressing false).Leaves lz cs off →
    loadedBlocks clz4 accepts on = loadedBlocks clz4 accepts off

/-! ### A codec that marks its streams -/

/-- Decompression of a marked stream; anything else decompresses to a byte 3. -/
def GoSlice.unmark (bs : List UInt8) (out : GoSlice) : GoSlice :=
  match bs with
  | 255 :: bs => GoSlice.unstore bs out
  | _ => GoSlice.unstore [3] out

theorem GoSlice.cap_unmark (bs : List UInt8) (out : GoSlice) :
    (GoSlice.unmark bs out).cap = out.cap := by
  unfold unmark
  split
  · exact cap_unstore ..
  · exact cap_unstore ..

private theorem length_marked (bs : List UInt8) :
    (255 :: bs).length ≤ bs.length + bs.length / 255 + 16 := by
  rw [List.length_cons]
  omega

theorem GoSlice.unmark_marked (bs : List UInt8) (out : GoSlice) (h : bs.length ≤ out.cap) :
    GoSlice.unmark (255 :: bs) out = out.overwrite bs h :=
  GoSlice.unstore_of_le bs out h

/-- A codec that puts a marker in front of its input. -/
def Codec.marked : Codec where
  compress := fun bs ↦ 255 :: bs
  clz4 := ⟨GoSlice.unmark, GoSlice.cap_unmark⟩
  bound := length_marked
  inverts := GoSlice.unmark_marked

theorem GoSlice.unmark_of_head_ne {bs : List UInt8} (h : bs.head? ≠ some 255) (out : GoSlice) :
    GoSlice.unmark bs out = GoSlice.unstore [3] out := by
  unfold unmark
  split
  · exact absurd rfl h
  · rfl

/-- Compressed and as it is, every flushed block fits the viewer's buffers. -/
theorem Codec.fits_marked {ss : List Slot} (h : ss.length ≤ flushSize) :
    Codec.marked.Fits ss ∧ (Slot.bytesOf ss).length ≤ viewerBufsize := by
  have hk : flushSize = 187244 := by decide
  have hr : recordSize = 56 := rfl
  have hv : viewerBufsize = 10485760 := by decide
  have hb := Slot.length_bytesOf ss
  rw [hr] at hb
  have hone : (Codec.marked.compress (Slot.bytesOf ss)).length ≤ viewerBufsize := by
    change (255 :: Slot.bytesOf ss).length ≤ _
    rw [List.length_cons]
    omega
  have htwo : (payloadOf Codec.marked.compress true ss).length ≤ viewerBufsize := by
    change (255 :: 255 :: Slot.bytesOf ss).length ≤ _
    simp only [List.length_cons]
    omega
  exact ⟨⟨hone, htwo⟩, by omega⟩

/-! ### The first record of a block -/

/-- A logged record is of one of three types. -/
theorem Slot.Holds.type_lt {s : Slot} {e : Logged} (h : s.Holds Slot.readback e) :
    s.get .type < 3 := by
  have hread := h.read
  unfold Slot.readback at hread
  split at hread
  · omega
  · omega
  · omega
  · cases hread

/-- The first byte of a slot is the low byte of its type. -/
theorem Slot.type_of_head {s : Slot} {b : UInt8} {bs : List UInt8} (h : s.bytes = b :: bs) :
    s.get .type = b.toNat + 256 * leNat (bs.take 3) := by
  rw [Slot.get, load, h]
  rfl

/-- The bytes of logged records do not begin with the marker. -/
theorem head_bytesOf_ne {ss : List Slot} (h : ∀ s ∈ ss, s.get .type < 3) :
    (Slot.bytesOf ss).head? ≠ some 255 := by
  cases ss with
  | nil => exact nofun
  | cons s ss =>
    have hs := h s (by simp)
    have hc : Slot.bytesOf (s :: ss) = s.bytes ++ Slot.bytesOf ss := rfl
    rw [hc]
    cases hb : s.bytes with
    | nil =>
      have hsize := s.size_eq
      rw [hb] at hsize
      cases hsize
    | cons b bs =>
      intro hhead
      rw [Slot.type_of_head hb] at hs
      cases hhead
      have h255 : (255 : UInt8).toNat = 255 := rfl
      omega

/-- A block of logged records begins with one of the three types when it loads. -/
theorem head_padded_ne {ss : List Slot} (h : ∀ s ∈ ss, s.get .type < 3) :
    ((padded ss).head?.map (Slot.get .type)) ≠ some 3 := by
  cases ss with
  | nil =>
    have hpos : expectedNrec - ([] : List Slot).length = (expectedNrec - 1) + 1 := by decide
    rw [padded, hpos, List.replicate_succ]
    change some (Slot.zero.get .type) ≠ some 3
    rw [Slot.get_zero]
    decide
  | cons s ss =>
    change some (s.get .type) ≠ some 3
    intro hs
    have hlt := h s (by simp)
    have h3 := Option.some.inj hs
    omega

/-- Memory that begins with a byte 3 and then zeros holds a record of type 3 first. -/
theorem head_ofBytes_three (n : Nat) :
    (Slot.ofBytes (3 :: List.replicate (55 + n) 0)).head?.map (Slot.get .type) = some 3 := by
  have hs : (3 :: List.replicate 55 0 : List UInt8).length = recordSize := by simp [recordSize]
  have happ := Slot.ofBytes_append ⟨3 :: List.replicate 55 0, hs⟩ (List.replicate n 0)
  rw [List.cons_append, List.replicate_append_replicate] at happ
  rw [happ]
  rfl

/-- Bytes the codec did not mark decode to a record of type 3 first. -/
theorem Codec.head_decodeRecords_marked {bs : List UInt8} (h : bs.head? ≠ some 255)
    {round1 : GoSlice} (hcap : 1 ≤ round1.cap) :
    (decodeRecords Codec.marked.clz4 bs round1).1.head?.map (Slot.get .type) = some 3 := by
  have hfirst : GoSlice.unmark bs round1 = round1.overwrite [3] hcap := by
    rw [GoSlice.unmark_of_head_ne h, GoSlice.unstore_of_le]
  have hview : (GoSlice.unmark bs round1).view = [3] := by
    rw [hfirst, GoSlice.view_overwrite]
  have hsize : recordSize * expectedNrec = 1 + (55 + recordSize * (expectedNrec - 1)) := by decide
  have hroom : [(3 : UInt8)].length ≤ recordBytes.cap := by
    rw [recordBytes, GoSlice.cap_make, hsize]
    exact Nat.le_add_right 1 _
  have hsecond : GoSlice.unmark [3] recordBytes = recordBytes.overwrite [3] hroom := by
    rw [GoSlice.unmark_of_head_ne (by decide), GoSlice.unstore_of_le]
  have hcells : (recordBytes.overwrite [3] hroom).cells =
      3 :: List.replicate (55 + recordSize * (expectedNrec - 1)) 0 := by
    change store (List.replicate (recordSize * expectedNrec) 0) 0 [3] = _
    rw [store, hsize, Nat.add_comm 1, List.replicate_succ]
    rfl
  change (Slot.ofBytes (GoSlice.unmark (GoSlice.unmark bs round1).view recordBytes).cells).head?.map
    (Slot.get .type) = some 3
  rw [hview, hsecond, hcells, head_ofBytes_three]

/-! ### The two loads -/

theorem cut_ne_nil {α : Type} (log : Log α) : log.cut.done ≠ [] := by
  simp [Log.cut]

theorem type_lt_of_holds {ss : List Slot} {es : List Logged}
    (h : List.Forall₂ (Slot.Holds Slot.readback) ss es) : ∀ s ∈ ss, s.get .type < 3 := by
  induction h with
  | nil => exact nofun
  | cons he _ ih => exact List.forall_mem_cons.mpr ⟨he.type_lt, ih⟩

/-- Every record a finished run flushed is of one of three types. -/
theorem type_lt_of_mem_cut {log : Log Slot} {es : List Logged}
    (h : List.Forall₂ (Slot.Holds Slot.readback) log.contents es) :
    ∀ ss ∈ log.cut.done, ∀ s ∈ ss, s.get .type < 3 := by
  intro ss hss s hs
  apply type_lt_of_holds h
  simp only [Log.cut, List.mem_append, List.mem_singleton] at hss
  rcases hss with hss | rfl
  · exact List.mem_append_left _ (List.mem_flatten.mpr ⟨ss, hss, hs⟩)
  · exact List.mem_append_right _ hs

/-- What the viewer makes of the first record of a file with one block or more. -/
def firstType (loaded : Except GoPanic (List (List Record))) : Option Nat :=
  match loaded with
  | .ok (rs :: _) => rs.head?.map (Slot.get .type)
  | _ => none

theorem firstType_compressed (accepts : List UInt8 → Bool) {table : List UInt8}
    (htable : 0 ∉ table) (haccepts : accepts table = true) {blocks : List (List Slot)}
    (hsize : ∀ ss ∈ blocks, ss.length ≤ flushSize)
    (htype : ∀ ss ∈ blocks, ∀ s ∈ ss, s.get .type < 3) :
    firstType (loadedBlocks Codec.marked.clz4 accepts
      (magicBytes ++ (table ++ 0 :: framesOf Codec.marked.compress true blocks))) ≠ some 3 := by
  obtain ⟨loaded, hload, hmap, -⟩ := loadFile_padded Codec.marked htable haccepts
    fun ss hss ↦ ⟨hsize ss hss, (Codec.fits_marked (hsize ss hss)).1⟩
  rw [loadedBlocks, hload]
  change firstType (.ok (loaded.map RawBlock.records)) ≠ some 3
  rw [hmap]
  cases blocks with
  | nil => exact nofun
  | cons ss blocks => exact head_padded_ne (htype ss (by simp))

theorem firstType_raw (accepts : List UInt8 → Bool) {table : List UInt8}
    (htable : 0 ∉ table) (haccepts : accepts table = true) {blocks : List (List Slot)}
    (hne : blocks ≠ []) (hsize : ∀ ss ∈ blocks, ss.length ≤ flushSize)
    (htype : ∀ ss ∈ blocks, ∀ s ∈ ss, s.get .type < 3) :
    firstType (loadedBlocks Codec.marked.clz4 accepts
      (magicBytes ++ (table ++ 0 :: framesOf Codec.marked.compress false blocks))) = some 3 := by
  have hfit : ∀ p ∈ blocks.map (payloadOf Codec.marked.compress false),
      p.length ≤ viewerBufsize := by
    intro p hp
    obtain ⟨ss, hss, rfl⟩ := List.mem_map.mp hp
    exact (Codec.fits_marked (hsize ss hss)).2
  have hlt : ∀ p ∈ blocks.map (payloadOf Codec.marked.compress false), p.length < 256 ^ 8 := by
    intro p hp
    have hv : viewerBufsize = 10485760 := by decide
    have hle := hfit p hp
    omega
  rw [loadedBlocks, framesOf, loadFile_payloads Codec.marked.clz4 accepts htable hlt,
    if_pos haccepts, if_pos hfit]
  cases blocks with
  | nil => exact absurd rfl hne
  | cons ss blocks =>
    have hcap : 1 ≤ round1Buffer.cap := by
      rw [round1Buffer, GoSlice.cap_make]
      decide
    exact Codec.head_decodeRecords_marked (head_bytesOf_ne (htype ss (by simp))) hcap

/-- What a finished run leaves under either setting. -/
theorem finished_compressing (lz : Lz4) {start : Startup}
    (hname : start.flags.filename.isSome = true) (hfd : start.fd ≠ -1) (on : Bool)
    (cs : List Call) :
    ∃ r es r' log, runCalls lz (memaInitialize (start.compressing on)) cs = .ok (r, es) ∧
      memaFinalize lz r = .ok r' ∧ Log.Filled flushSize log ∧
      List.Forall₂ (Slot.Holds Slot.readback) log.contents es ∧
      r'.shared.out.bytes =
        magicBytes ++ (start.maps.flatten ++ 0 :: framesOf lz on log.cut.done) := by
  have hname' : (start.compressing on).flags.filename.isSome = true := hname
  obtain ⟨r, r', log, hfinished⟩ := finished_file lz hname' hfd cs
  exact ⟨r, _, r', log, hfinished⟩

/-- Whatever was logged, a file written with compression loads to records of known types; one
written without it begins with a record of type 3, when the decompressor makes that of it. -/
theorem marked_not_alike (accepts : List UInt8 → Bool) {start : Startup}
    (hname : start.flags.filename.isSome = true) (hfd : start.fd ≠ -1)
    (htext : 0 ∉ start.maps.flatten) (haccepts : accepts start.maps.flatten = true)
    (cs : List Call) :
    ¬ LoadsAlike Codec.marked.compress Codec.marked.clz4 accepts start cs := by
  intro halike
  obtain ⟨r, es, r', log, hr, hr', hf, hh, hb⟩ := finished_compressing
    Codec.marked.compress hname hfd true cs
  obtain ⟨s, fs, s', log', hs, hs', hf', hh', hb'⟩ := finished_compressing
    Codec.marked.compress hname hfd false cs
  have hsame := halike _ _ ⟨r, es, r', hr, hr', hb⟩ ⟨s, fs, s', hs, hs', hb'⟩
  have hon := firstType_compressed accepts htext haccepts (fun _ ↦ hf.length_le_of_mem_cut)
    (type_lt_of_mem_cut hh)
  have hoff := firstType_raw accepts htext haccepts (cut_ne_nil log')
    (fun _ ↦ hf'.length_le_of_mem_cut) (type_lt_of_mem_cut hh')
  exact hon ((congrArg firstType hsame).trans hoff)

/-- A file whose page table is refused does not load, however its frames were written. -/
theorem loadedBlocks_refused (clz4 : Clz4) {accepts : List UInt8 → Bool} {table : List UInt8}
    (htable : 0 ∉ table) (hrefused : accepts table = false) (rest : List UInt8) :
    loadedBlocks clz4 accepts (magicBytes ++ (table ++ 0 :: rest)) = .error .pageTable := by
  rw [loadedBlocks, loadFile, newProgramData_spec htable, hrefused]
  rfl

/-! ### The main result -/

/-- A trace is independent of the flag only if the viewer refuses its page table: for every
other run that writes a file there is a decompressor that tells the two files apart. -/
theorem loadsAlike_iff (accepts : List UInt8 → Bool) (start : Startup)
    (hname : start.flags.filename.isSome = true) (hfd : start.fd ≠ -1)
    (htext : 0 ∉ start.maps.flatten) (cs : List Call) :
    (∀ c : Codec, LoadsAlike c.compress c.clz4 accepts start cs) ↔
      accepts start.maps.flatten = false := by
  constructor
  · intro halike
    by_contra haccepts
    rw [Bool.not_eq_false] at haccepts
    exact marked_not_alike accepts hname hfd htext haccepts cs (halike Codec.marked)
  · intro hrefused c on off hon hoff
    obtain ⟨r, es, r', hr, hr', rfl⟩ := hon
    obtain ⟨s, fs, s', hs, hs', rfl⟩ := hoff
    obtain ⟨r₁, es₁, r₁', log, hr₁, hr₁', -, -, hb⟩ := finished_compressing c.compress
      hname hfd true cs
    obtain ⟨s₁, fs₁, s₁', log', hs₁, hs₁', -, -, hb'⟩ := finished_compressing c.compress
      hname hfd false cs
    cases hr.symm.trans hr₁
    cases hr'.symm.trans hr₁'
    cases hs.symm.trans hs₁
    cases hs'.symm.trans hs₁'
    have hload := loadedBlocks_refused c.clz4 htext hrefused
    rw [hb, hb']
    exact (hload _).trans (hload _).symm

/-- The flag is visible in the trace of a call and a write in it. -/
theorem loadsAlike_iff_call :
    (∀ c : Codec, LoadsAlike c.compress c.clz4 (fun _ ↦ true) Startup.toFile
      [.functionEntry 16, .access 4096 32 true ⟨0, 1, 2, 3⟩, .functionExit 16]) ↔ true = false :=
  loadsAlike_iff (fun _ ↦ true) Startup.toFile rfl (by decide) (by decide) _

/-! ### One function entry and `lz4.c` -/

/-- The file of the entry with compression. -/
private theorem leaves_entry (lz : Lz4) : ∃ s : Slot, s.get .type = 1 ∧
    (Startup.toFile.compressing true).Leaves lz [.functionEntry 16]
      (magicBytes ++ ([] ++ 0 :: framesOf lz true [[s]])) := by
  obtain ⟨r, es, r', log, hr, hr', hf, hholds, hbytes⟩ :=
    @finished_compressing lz Startup.toFile rfl (by decide) true [.functionEntry 16]
  obtain rfl : es = [.funcEnter 16] := by
    have hlogged : (runCalls lz (memaInitialize (Startup.toFile.compressing true))
        [.functionEntry 16]).map Prod.snd = .ok [.funcEnter 16] := rfl
    rw [hr] at hlogged
    exact Except.ok.inj hlogged
  have hone := hholds.length_eq
  have hdone : log.done = [] := by
    rw [← List.length_eq_zero_iff, hf.length_done, hone]
    decide
  obtain ⟨s, hpending⟩ : ∃ s, log.pending = [s] := by
    rw [Log.contents, hdone] at hone
    exact List.length_eq_one_iff.mp hone
  rw [Log.contents, hdone, hpending] at hholds
  refine ⟨s, ?_, r, _, r', hr, hr', ?_⟩
  · obtain ⟨hs, -⟩ := List.forall₂_cons.mp hholds
    have hread := hs.read
    unfold Slot.readback at hread
    split at hread
    · cases hread
    · next htype => exact htype
    · cases hread
    · cases hread
  · rw [hbytes, Log.cut, hdone, hpending]
    rfl

/-- Compressed, the entry is the first record. -/
private theorem firstType_entry {s : Slot} (hs : s.get .type = 1) :
    firstType (loadedBlocks lz4Clz4 (fun _ ↦ true)
      (magicBytes ++ ([] ++ 0 :: framesOf lz4Calloc true [[s]]))) = some 1 := by
  have hlen : ∀ ss ∈ [[s]], ss.length ≤ surelyFits := by
    intro ss hss
    rw [List.mem_singleton.mp hss]
    exact Nat.le_add_left 1 _
  obtain ⟨loaded, hload, hshot⟩ := @loadFile_lz4 _ _ runsCompress_lz4Calloc
    runsUncompress_lz4Clz4 (fun _ ↦ true) [] [[s]] List.not_mem_nil rfl
    (fun ss hss ↦ (hlen ss hss).trans (by decide))
    fun ss hss hlong ↦ absurd (hlen ss hss) (Nat.not_le_of_lt hlong)
  obtain ⟨b, blocks, ⟨p, -, hrecords⟩, -, rfl⟩ := List.forall₂_cons_left_iff.mp hshot
  rw [loadedBlocks, hload]
  show (b.records.head?.map (Slot.get .type)) = some 1
  rw [hrecords, List.singleton_append, List.head?_cons, Option.map_some]
  exact congrArg some hs

/-- The bytes of the entry. -/
private def entryBytes : List UInt8 := ((Logged.funcEnter 16).write Slot.zero).bytes

/-- The file of the entry without compression. -/
private theorem leaves_entry_raw (lz : Lz4) :
    (Startup.toFile.compressing false).Leaves lz [.functionEntry 16]
      (magicBytes ++ ([] ++ 0 :: frames 8 [entryBytes])) := by
  obtain ⟨r, es, r', log, hr, hr', -⟩ :=
    @finished_compressing lz Startup.toFile rfl (by decide) false [.functionEntry 16]
  have hbytes : ((runCalls lz (memaInitialize (Startup.toFile.compressing false))
      [.functionEntry 16]).bind fun run ↦ memaFinalize lz run.1).map (fun r ↦ r.shared.out.bytes) =
        .ok (magicBytes ++ ([] ++ 0 :: frames 8 [entryBytes])) := rfl
  rw [hr] at hbytes
  change (memaFinalize lz r).map _ = _ at hbytes
  rw [hr'] at hbytes
  exact ⟨r, es, r', hr, hr', Except.ok.inj hbytes⟩

/-- As they are, the decoder refuses them, and nothing but zeros is loaded. -/
private theorem firstType_entry_raw : firstType (loadedBlocks lz4Clz4 (fun _ ↦ true)
    (magicBytes ++ ([] ++ 0 :: frames 8 [entryBytes]))) = some 0 := by
  have hlen : entryBytes.length = recordSize := Slot.size_eq _
  have hmem : ∀ p ∈ [entryBytes], p.length = recordSize := by
    intro p hp
    rw [List.mem_singleton.mp hp, hlen]
  have hfits : ∀ p ∈ [entryBytes], p.length ≤ viewerBufsize :=
    fun p hp ↦ (hmem p hp).trans_le (by decide)
  have hlt : ∀ p ∈ [entryBytes], p.length < 256 ^ 8 :=
    fun p hp ↦ (hmem p hp).trans_lt (by decide)
  have hrefuses : refuses viewerBufsize recordSize 0 entryBytes = true := by decide
  rw [loadedBlocks, loadFile_payloads lz4Clz4 _ List.not_mem_nil hlt, if_pos rfl, if_pos hfits]
  show (decodeRecords lz4Clz4 entryBytes round1Buffer).1.head?.map (Slot.get .type) = some 0
  rw [decodeRecords_refused hrefuses]
  rfl

/-- One logged function entry: compressed by `lz4.c` it loads as an entry, uncompressed as
zeros, though what this LZ4 compresses it restores. -/
theorem one_entry_not_alike :
    (∀ (bs : List UInt8) (out : GoSlice), lz4CompressBound bs.length < intLimit →
      bs.length ≤ out.cap → (lz4Clz4.uncompressUnknownOutputSize (lz4Calloc bs) out).view = bs) ∧
    ¬ LoadsAlike lz4Calloc lz4Clz4 (fun _ ↦ true) Startup.toFile [.functionEntry 16] := by
  constructor
  · intro bs out hint hfits
    exact runsUncompress_lz4Clz4.view runsCompress_lz4Calloc hint hfits
  · intro halike
    obtain ⟨s, hs, hon⟩ := leaves_entry lz4Calloc
    have hsame := congrArg firstType (halike _ _ hon (leaves_entry_raw lz4Calloc))
    rw [firstType_entry hs, firstType_entry_raw] at hsame
    cases hsame

end Mema
