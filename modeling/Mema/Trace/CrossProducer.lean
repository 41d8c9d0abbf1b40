import Mema.Trace.RoundTrip
import Mema.Viewer.Vertices

/-!
# The viewer on memadump's traces

memadump stores its own type codes and a size where the viewer looks for its codes and for
`IsWrite`. Only instruction fetches carry a code the viewer takes for an access, and their
size is read as the write flag.
-/

namespace Mema.Memadump

open Chunks Nesting

/-- Logged by `trace_store` or `trace_modify`. -/
def EventKind.isWrite : EventKind → Bool
  | .Ir => false
  | .Dr => false
  | .Dw => true
  | .Dm => true

/-- The viewer takes a record for the logged event: an access at its address, in the colours
of a write exactly when it was one. -/
structure SeenAs (r : Record) (e : TraceEvent) : Prop where
  access : r.type = MEMA_ACCESS
  addr : r.addr = e.addr
  colour : accessColour r = if e.kind.isWrite then (255, 0, 0) else (0, 255, 0)

/-- The record of the `i`-th logged event among the loaded blocks. -/
def loadedRecord (loaded : List RawBlock) (i : Nat) : Option Record :=
  (loaded[i / flushSize]?).bind fun b ↦ b.records[i % flushSize]?

/-- A traced run of memadump: what `open` and the reads of the maps answered, and the
events. -/
structure Run where
  fd : Nat
  maps : List (List UInt8)
  mapsFailed : Bool
  events : List TraceEvent

/-- The file the run leaves. -/
def Run.file (lz : Lz4) (t : Run) : Except Fault (List UInt8) :=
  match runTrace lz (postCloInit t.fd t.maps t.mapsFailed) t.events with
  | .error f => .error f
  | .ok d =>
    match memaFinalize lz d with
    | .error f => .error f
    | .ok d => .ok d.out.bytes

/-- The map text has no NUL and parses, and every flushed block fits the viewer's buffers. -/
structure Run.Decodable (c : Codec) (accepts : List UInt8 → Bool) (t : Run) : Prop where
  text : 0 ∉ t.maps.flatten
  table : accepts t.maps.flatten = true
  fits : ∀ blocks, (∀ ss ∈ blocks, ss.length ≤ flushSize) →
    t.file c.compress =
      .ok (magicBytes ++ (t.maps.flatten ++ 0 :: framesOf c.compress true blocks)) →
    ∀ ss ∈ blocks, c.Fits ss

/-- The viewer loads the run without a panic and sees every logged event for what it is. -/
def Run.Understood {τ : Type} (c : Codec) (S : Stree τ) (F : Rounding) (flags : ViewerFlags)
    (accepts : List UInt8 → Bool) (t : Run) : Prop :=
  ∃ file loaded blocks, t.file c.compress = .ok file ∧
    loadFile c.clz4 accepts file = .ok loaded ∧
    consumeBlocks S F flags [] loaded = .ok blocks ∧
    ∀ i (hi : i < t.events.length), ∃ r, loadedRecord loaded i = some r ∧ SeenAs r t.events[i]

/-! ### Loading a run -/

/-- A finished run leaves one frame for each flushed block of a log of its events. -/
theorem Run.file_spec (lz : Lz4) (t : Run) :
    ∃ log, Log.Filled flushSize log ∧
      List.Forall₂ (Slot.Holds readback) log.contents t.events ∧
      t.file lz = .ok (magicBytes ++ (t.maps.flatten ++ 0 :: framesOf lz true log.cut.done)) := by
  obtain ⟨d, log, hd, ht, hf⟩ := runTrace_spec
    (postCloInit_traced lz t.fd t.maps t.mapsFailed) (Log.filled_empty (by decide)) t.events
  rw [List.nil_append] at ht
  obtain ⟨d', hd', hb, -⟩ := memaFinalize_spec ht
  refine ⟨log, hf, ht.kept.holds, ?_⟩
  have hheader : (postCloInit t.fd t.maps t.mapsFailed).out.bytes =
      magicBytes ++ (t.maps.flatten ++ [0]) := by
    rw [← List.append_assoc]
    rfl
  rw [hheader] at hb
  simp only [Run.file, hd, hd', hb, List.append_assoc]
  rfl

/-- What the viewer loads of a decodable run: its log, each block padded with zeroed records. -/
theorem Run.load_spec {c : Codec} {accepts : List UInt8 → Bool} {t : Run}
    (h : t.Decodable c accepts) :
    ∃ log file loaded, Log.Filled flushSize log ∧
      List.Forall₂ (Slot.Holds readback) log.contents t.events ∧
      t.file c.compress = .ok file ∧ loadFile c.clz4 accepts file = .ok loaded ∧
      loaded.map RawBlock.records = log.cut.done.map padded ∧
      ∀ b ∈ loaded, b.records.length = expectedNrec ∧ b.nrecords = expectedNrec := by
  obtain ⟨log, hf, hh, hfile⟩ := t.file_spec c.compress
  have hsize : ∀ ss ∈ log.cut.done, ss.length ≤ flushSize :=
    fun _ ↦ hf.length_le_of_mem_cut
  obtain ⟨loaded, hload, hrec, hn⟩ := loadFile_padded c h.text h.table
    fun ss hss ↦ ⟨hsize ss hss, h.fits _ hsize hfile ss hss⟩
  exact ⟨log, _, loaded, hf, hh, hfile, hload, hrec, hn⟩

/-- The record of event `i` is item `i` of the log. -/
theorem loadedRecord_eq {log : Log Slot} {loaded : List RawBlock} (hf : log.Filled flushSize)
    (h : loaded.map RawBlock.records = log.cut.done.map padded) {i : Nat}
    (hi : i < log.contents.length) : loadedRecord loaded i = some log.contents[i] := by
  have hget := hf.getElem_cut hi
  obtain ⟨ss, hss, hs⟩ := Option.bind_eq_some_iff.mp hget
  have hmap := congrArg (fun bs : List (List Record) ↦ bs[i / flushSize]?) h
  simp only [List.getElem?_map, hss, Option.map_some] at hmap
  obtain ⟨b, hb, hrec⟩ := Option.map_eq_some_iff.mp hmap
  have hlt := (List.getElem?_eq_some_iff.mp hs).1
  rw [loadedRecord, hb, Option.bind_some, hrec, padded, List.getElem?_append_left hlt]
  exact hs

/-! ### What a stored event looks like to the viewer -/

theorem fields_of_readback {s : Slot} {e : TraceEvent} (h : readback s = some e) :
    s.get .type = e.kind.recordType.code ∧ UInt64.ofNat (s.get .addr) = e.addr ∧
      UInt64.ofNat (s.get .lastWord) = e.size := by
  unfold readback at h
  dsimp only at h
  split at h
  · next ht => cases h; exact ⟨ht, rfl, rfl⟩
  · next ht => cases h; exact ⟨ht, rfl, rfl⟩
  · next ht => cases h; exact ⟨ht, rfl, rfl⟩
  · next ht => cases h; exact ⟨ht, rfl, rfl⟩
  · cases h

theorem viewer_fields {r : Record} {e : TraceEvent} (h : Slot.Holds readback r e) :
    r.type = e.kind.recordType.code ∧ r.addr = e.addr ∧ r.isWrite = e.size := by
  obtain ⟨ht, ha, hw⟩ := fields_of_readback h.read
  refine ⟨?_, ha, hw⟩
  rw [Record.type, Slot.get_typeWord, ht, h.padding, Nat.mul_zero, Nat.add_zero]

/-- A fetch is drawn in the colours of a read when its size is a multiple of 256. -/
theorem accessColour_eq_read_iff (r : Record) :
    accessColour r = (0, 255, 0) ↔ r.isWrite.toNat % 256 = 0 := by
  have hbyte : r.isWrite.toUInt8 = 0 ↔ r.isWrite.toNat % 256 = 0 := by
    rw [← UInt8.toNat_inj, UInt64.toNat_toUInt8]
    rfl
  rw [accessColour, ← hbyte, UInt64.toUInt8_sub]
  constructor
  · intro he
    have hred : r.isWrite.toUInt8 * 255 = 0 := (Prod.mk.inj he).1
    grind
  · intro he
    rw [he]
    rfl

/-- The viewer sees a stored event for what it is exactly when it is a fetch whose size is a
multiple of 256. -/
theorem seenAs_iff {r : Record} {e : TraceEvent} (h : Slot.Holds readback r e) :
    SeenAs r e ↔ e.kind = .Ir ∧ e.size.toNat % 256 = 0 := by
  obtain ⟨ht, ha, hw⟩ := viewer_fields h
  constructor
  · intro hseen
    have hcode : e.kind.recordType.code = 0 := by
      rw [← ht, hseen.access]
      rfl
    have hkind : e.kind = .Ir := by
      cases hk : e.kind with
      | Ir => rfl
      | Dr => rw [hk] at hcode; exact absurd hcode (by decide)
      | Dw => rw [hk] at hcode; exact absurd hcode (by decide)
      | Dm => rw [hk] at hcode; exact absurd hcode (by decide)
    have hcolour := hseen.colour
    rw [hkind] at hcolour
    rw [← hw]
    exact ⟨hkind, (accessColour_eq_read_iff r).mp hcolour⟩
  · rintro ⟨hkind, hsize⟩
    refine ⟨?_, ha, ?_⟩
    · rw [ht, hkind]
      rfl
    · rw [hkind]
      apply (accessColour_eq_read_iff r).mpr
      rw [hw]
      exact hsize

/-! ### Loading accesses only -/

section Accesses

variable {τ : Type} {S : Stree τ} {F : Rounding} {flags : ViewerFlags}

/-- A block of accesses passes the consumer and leaves the context alone. -/
theorem consumeBlock_accesses (S : Stree τ) (F : Rounding) (hps : flags.pageSize ≠ 0)
    (hfit : (expectedNrec + 1) * flags.pageSize.toNat < 2 ^ 64) {b : RawBlock}
    (hlen : b.records.length = expectedNrec) (hn : b.nrecords = expectedNrec)
    (hacc : ∀ r ∈ b.records, r.type = MEMA_ACCESS) (context : List Record) :
    ∃ block, consumeBlock S F flags context b = .ok (block, context) := by
  obtain ⟨block, hblock⟩ := consumeBlock_known S F hps hfit hlen hn
    (fun r hr ↦ .inl (hacc r hr)) (replay_accesses hacc context)
  exact ⟨block, by rwa [ite_self] at hblock⟩

/-- Blocks of accesses are all loaded. -/
theorem consumeBlocks_accesses (S : Stree τ) (F : Rounding) (hps : flags.pageSize ≠ 0)
    (hfit : (expectedNrec + 1) * flags.pageSize.toNat < 2 ^ 64) {bs : List RawBlock}
    (h : ∀ b ∈ bs, (b.records.length = expectedNrec ∧ b.nrecords = expectedNrec) ∧
      ∀ r ∈ b.records, r.type = MEMA_ACCESS) (context : List Record) :
    ∃ blocks, consumeBlocks S F flags context bs = .ok blocks := by
  induction bs with
  | nil => exact ⟨[], rfl⟩
  | cons b bs ih =>
    obtain ⟨⟨hlen, hn⟩, hacc⟩ := h b (by simp)
    obtain ⟨block, hblock⟩ := consumeBlock_accesses S F hps hfit hlen hn hacc context
    obtain ⟨blocks, hblocks⟩ := ih fun q hq ↦ h q (by simp [hq])
    refine ⟨block :: blocks, ?_⟩
    simp only [consumeBlocks, hblock, hblocks, bind, Except.bind]
    rfl

end Accesses

/-! ### When the viewer understands memadump -/

/-- A run the viewer understands has only fetches of sizes that are multiples of 256. -/
theorem Run.understood_only {τ : Type} {c : Codec} {S : Stree τ} {F : Rounding}
    {flags : ViewerFlags} {accepts : List UInt8 → Bool} {t : Run} (hdec : t.Decodable c accepts)
    (h : t.Understood c S F flags accepts) :
    ∀ e ∈ t.events, e.kind = .Ir ∧ e.size.toNat % 256 = 0 := by
  obtain ⟨log, file, loaded, hf, hh, hfile, hload, hrec, -⟩ := Run.load_spec hdec
  obtain ⟨file', loaded', blocks, hfile', hload', -, hseen⟩ := h
  cases hfile.symm.trans hfile'
  cases hload.symm.trans hload'
  intro e he
  obtain ⟨i, hi, rfl⟩ := List.mem_iff_getElem.mp he
  obtain ⟨r, hr, hsee⟩ := hseen i hi
  have hi' : i < log.contents.length := by rw [hh.length_eq]; exact hi
  rw [loadedRecord_eq hf hrec hi'] at hr
  cases hr
  exact (seenAs_iff (List.forall₂_iff_get.mp hh |>.2 i hi' hi)).mp hsee

/-- The viewer understands a decodable run of memadump exactly when every event is a fetch
whose size is a multiple of 256, with or without `-stree`. -/
theorem understood_iff {τ : Type} (c : Codec) (S : Stree τ) (F : Rounding)
    (flags : ViewerFlags) (hps : flags.pageSize ≠ 0)
    (hfit : (expectedNrec + 1) * flags.pageSize.toNat < 2 ^ 64)
    (accepts : List UInt8 → Bool) (t : Run) (hdec : t.Decodable c accepts) :
    t.Understood c S F flags accepts ↔ ∀ e ∈ t.events, e.kind = .Ir ∧ e.size.toNat % 256 = 0 := by
  constructor
  · exact Run.understood_only hdec
  · intro hall
    obtain ⟨log, file, loaded, hf, hh, hfile, hload, hrec, hn⟩ := Run.load_spec hdec
    have hholds : ∀ s ∈ log.contents, Record.type s = MEMA_ACCESS := by
      intro s hs
      obtain ⟨i, hi, rfl⟩ := List.mem_iff_getElem.mp hs
      have hi' : i < t.events.length := by rw [← hh.length_eq]; exact hi
      have hread := List.forall₂_iff_get.mp hh |>.2 i hi hi'
      exact ((seenAs_iff hread).mpr (hall _ (List.getElem_mem hi'))).access
    have hacc : ∀ b ∈ loaded, ∀ r ∈ b.records, r.type = MEMA_ACCESS := by
      intro b hb r hr
      have hmem : b.records ∈ log.cut.done.map padded := by
        rw [← hrec]
        exact List.mem_map_of_mem hb
      obtain ⟨ss, hss, hpad⟩ := List.mem_map.mp hmem
      rw [← hpad] at hr
      rcases List.mem_append.mp hr with hin | hzero
      · apply hholds
        rw [← Log.contents_cut, Log.contents]
        exact List.mem_append_left _ (List.mem_flatten.mpr ⟨ss, hss, hin⟩)
      · rw [(List.mem_replicate.mp hzero).2]
        exact Slot.get_zero _
    obtain ⟨blocks, hblocks⟩ := consumeBlocks_accesses S F hps hfit
      (fun b hb ↦ ⟨hn b hb, hacc b hb⟩) []
    refine ⟨file, loaded, blocks, hfile, hload, hblocks, ?_⟩
    intro i hi
    have hi' : i < log.contents.length := by rw [hh.length_eq]; exact hi
    have hread := List.forall₂_iff_get.mp hh |>.2 i hi' hi
    exact ⟨_, loadedRecord_eq hf hrec hi',
      (seenAs_iff hread).mpr (hall _ (List.getElem_mem hi))⟩

/-- With the storing codec every run with empty maps decodes. -/
theorem decodable_stored (fd : Nat) (events : List TraceEvent) :
    (Run.mk fd [] false events).Decodable Codec.stored fun _ ↦ true where
  text := by simp
  table := rfl
  fits := by
    intro blocks hsize _ ss hss
    have hlen : (Slot.bytesOf ss).length ≤ viewerBufsize := by
      rw [Slot.length_bytesOf]
      exact (Nat.mul_le_mul_left _ (hsize ss hss)).trans (by decide)
    exact ⟨hlen, hlen⟩

/-- One 8-byte load: the viewer takes its type code for a function enter. -/
theorem one_load_not_understood :
    ¬ (Run.mk 3 [] false [⟨.Dr, 4096, 8⟩]).Understood Codec.stored Stree.listing Rounding.none
      ViewerFlags.default fun _ ↦ true := by
  intro h
  have honly := Run.understood_only (decodable_stored 3 _) h
  exact absurd (honly _ (List.mem_singleton_self _)).1 (by decide)

/-- The equivalence at one fetch of 4 bytes, which the viewer draws as a write. -/
theorem understood_iff_one_fetch :
    (Run.mk 3 [] false [⟨.Ir, 4096, 4⟩]).Understood Codec.stored Stree.listing Rounding.none
        ViewerFlags.default (fun _ ↦ true) ↔
      ∀ e ∈ ([⟨.Ir, 4096, 4⟩] : List TraceEvent), e.kind = .Ir ∧ e.size.toNat % 256 = 0 :=
  understood_iff Codec.stored Stree.listing Rounding.none ViewerFlags.default (by decide)
    (by decide) (fun _ ↦ true) _ (decodable_stored 3 _)

end Mema.Memadump
