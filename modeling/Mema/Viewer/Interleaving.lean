import Mema.Trace.Lz4Traces
import Mema.Viewer.Loader

/-!
# Every interleaving publishes the file in order

Whatever the order of requests, reads and publications, the blocks shown are a prefix of the
file, and a served request rebuilds what the first load of its block drew, as long as the payloads
alone decide what is decoded. `data.go:186–187` drop the library's errors: a payload that is refused
is decoded from what another block has left.
-/

namespace Mema

open Framing Lz4 Nesting

/-- What the library leaves in `round_1` for a payload depends on nothing but the payload. -/
def Clz4.Determines (clz4 : Clz4) (p : List UInt8) : Prop :=
  ∀ out out' : GoSlice, out.cap = viewerBufsize → out'.cap = viewerBufsize →
    (clz4.uncompressUnknownOutputSize p out).view = (clz4.uncompressUnknownOutputSize p out').view

/-- The records of a payload decoded through fresh buffers. -/
def decodedRecords (clz4 : Clz4) (p : List UInt8) : List Record :=
  (decodeRecords clz4 p round1Buffer).1

/-- The blocks of the frames behind `base`, each with its own start. -/
def fileBlocks (clz4 : Clz4) (base : Nat) (ps : List (List UInt8)) : List RawBlock :=
  ps.mapIdx fun k p ↦ createNewBlock (start 8 base ps k) (decodedRecords clz4 p)

section Loads

variable {τ : Type} (V : ViewerEnv τ)

/-- First loads in order, and the context they leave to the next one. -/
inductive FirstLoads : List RawBlock → List (Block τ) → List Record → Prop
  | nil : FirstLoads [] [] []
  | snoc {raws : List RawBlock} {blocks : List (Block τ)} {context context' : List Record}
      {raw : RawBlock} {block : Block τ} (h : FirstLoads raws blocks context)
      (hb : consumeBlock V.stree V.rounding V.flags context raw = .ok (block, context')) :
      FirstLoads (raws ++ [raw]) (blocks ++ [block]) context'

variable {V}

/-- A first load keeps the block's offset and draws its records from its own context. -/
theorem consumeBlock_ok {context context' : List Record} {raw : RawBlock} {block : Block τ}
    (h : consumeBlock V.stree V.rounding V.flags context raw = .ok (block, context')) :
    block.fileOffset = raw.fileOffset ∧
      generateVertices V.rounding V.flags block.regions block.contextRecords raw.nrecords
        raw.records = .ok block.vertexData := by
  obtain ⟨⟨tree, context''⟩, -, h⟩ := ok_of_bind h
  obtain ⟨regions, -, h⟩ := ok_of_bind h
  obtain ⟨vertices, hvertices, h⟩ := ok_of_bind h
  cases h
  exact ⟨rfl, hvertices⟩

theorem FirstLoads.map_fileOffset {raws : List RawBlock} {blocks : List (Block τ)}
    {context : List Record} (h : FirstLoads V raws blocks context) :
    blocks.map (·.fileOffset) = raws.map (·.fileOffset) := by
  induction h with
  | nil => rfl
  | snoc _ hb ih =>
    rw [List.map_append, List.map_append, ih, List.map_singleton, List.map_singleton,
      (consumeBlock_ok hb).1]

theorem FirstLoads.length_eq {raws : List RawBlock} {blocks : List (Block τ)}
    {context : List Record} (h : FirstLoads V raws blocks context) :
    blocks.length = raws.length := by
  simpa using congrArg List.length h.map_fileOffset

/-- The first blocks were loaded first. -/
theorem FirstLoads.take {raws : List RawBlock} {blocks : List (Block τ)}
    {context : List Record} (h : FirstLoads V raws blocks context) (m : Nat) :
    ∃ context', FirstLoads V (raws.take m) (blocks.take m) context' := by
  induction h with
  | nil => exact ⟨[], by simpa using FirstLoads.nil⟩
  | @snoc raws blocks context context' raw block h hb ih =>
    have hlen := h.length_eq
    by_cases hm : m ≤ raws.length
    · obtain ⟨context'', htake⟩ := ih
      refine ⟨context'', ?_⟩
      rwa [List.take_append_of_le_length hm, List.take_append_of_le_length (by omega)]
    · refine ⟨context', ?_⟩
      rw [List.take_of_length_le (by simp; omega), List.take_of_length_le (by simp; omega)]
      exact h.snoc hb

/-- Each block was made of its own records. -/
theorem FirstLoads.consumed {raws : List RawBlock} {blocks : List (Block τ)}
    {context : List Record} (h : FirstLoads V raws blocks context) {k : Nat} {raw : RawBlock}
    {block : Block τ} (hraw : raws[k]? = some raw) (hblock : blocks[k]? = some block) :
    ∃ before after,
      consumeBlock V.stree V.rounding V.flags before raw = .ok (block, after) := by
  induction h with
  | nil => cases hraw
  | @snoc raws blocks context context' raw' block' h hb ih =>
    have hlen := h.length_eq
    by_cases hk : k < raws.length
    · rw [List.getElem?_append_left hk] at hraw
      rw [List.getElem?_append_left (by omega)] at hblock
      exact ih hraw hblock
    · have hlast : k = raws.length := by
        have := (List.getElem?_eq_some_iff.mp hraw).1
        simp only [List.length_append, List.length_singleton] at this
        omega
      subst hlast
      rw [List.getElem?_concat_length, Option.some.injEq] at hraw
      rw [← hlen, List.getElem?_concat_length, Option.some.injEq] at hblock
      subst hraw hblock
      exact ⟨context, context', hb⟩

/-- Each block was drawn from its own records. -/
theorem FirstLoads.vertices {raws : List RawBlock} {blocks : List (Block τ)}
    {context : List Record} (h : FirstLoads V raws blocks context) {k : Nat} {raw : RawBlock}
    {block : Block τ} (hraw : raws[k]? = some raw) (hblock : blocks[k]? = some block) :
    generateVertices V.rounding V.flags block.regions block.contextRecords raw.nrecords
      raw.records = .ok block.vertexData := by
  obtain ⟨before, after, hb⟩ := h.consumed hraw hblock
  exact (consumeBlock_ok hb).2

end Loads

/-! ### The file -/

/-- Frames that fit the input buffer, from `base` to the end of the file. -/
structure Framed (file : List UInt8) (base : Nat) (ps : List (List UInt8)) : Prop where
  drop_start : ∀ k, file.drop (start 8 base ps k) = frames 8 (ps.drop k)
  fits : ∀ p ∈ ps, p.length ≤ viewerBufsize

/-- The frames behind the magic bytes and a page table. -/
theorem Framed.of_header {file table : List UInt8} {ps : List (List UInt8)}
    (hfile : file = magicBytes ++ (table ++ 0 :: frames 8 ps))
    (hfits : ∀ p ∈ ps, p.length ≤ viewerBufsize) : Framed file (8 + table.length + 1) ps := by
  have hbase : (magicBytes ++ (table ++ [0])).length = 8 + table.length + 1 := by
    rw [List.length_append, List.length_append, List.length_singleton, Nat.add_assoc]
    rfl
  refine ⟨?_, hfits⟩
  intro k
  have hdrop := Framing.drop_start 8 (magicBytes ++ (table ++ [0])) ps k
  rw [hbase] at hdrop
  rw [← hdrop, hfile]
  simp only [List.append_assoc, List.cons_append, List.nil_append]

/-- At the start of a frame that frame is read. -/
theorem Framed.readBlock_next {file : List UInt8} {base : Nat} {ps : List (List UInt8)}
    (h : Framed file base ps) {k : Nat} {p : List UInt8} (hp : ps[k]? = some p) {input : GoSlice}
    (hcap : input.cap = viewerBufsize) :
    ∃ input', readBlock file (start 8 base ps k) input =
        .ok (some (start 8 base ps (k + 1), input')) ∧
      input'.view = p ∧ input'.cap = viewerBufsize := by
  obtain ⟨hk, rfl⟩ := List.getElem?_eq_some_iff.mp hp
  have hfits := h.fits _ (List.getElem_mem hk)
  have hdrop := h.drop_start k
  rw [List.drop_eq_getElem_cons hk, frames_cons] at hdrop
  have hlt : ps[k].length < 256 ^ 8 := Nat.lt_of_le_of_lt hfits (by decide)
  obtain ⟨input', hread, hview, hcap'⟩ := readBlock_frame hdrop (by rw [hcap]; exact hfits) hlt
  rw [start_succ 8 base ps k hk]
  exact ⟨input', hread, hview, hcap'.trans hcap⟩

/-- Past the last frame is the end of the file. -/
theorem Framed.readBlock_eof {file : List UInt8} {base : Nat} {ps : List (List UInt8)}
    (h : Framed file base ps) (input : GoSlice) :
    readBlock file (start 8 base ps ps.length) input = .ok none := by
  apply Mema.readBlock_eof
  rw [h.drop_start, List.drop_length, frames_nil]

/-- A determined payload decodes the same through any state of `round_1`. -/
theorem decodeRecords_determined {clz4 : Clz4} {p : List UInt8} (h : clz4.Determines p)
    {round1 : GoSlice} (hcap : round1.cap = viewerBufsize) :
    (decodeRecords clz4 p round1).1 = decodedRecords clz4 p := by
  have hview := h round1 round1Buffer hcap (GoSlice.cap_make 1 viewerBufsize _)
  simp only [decodedRecords, decodeRecords, hview]

/-- Compressed bytes that fit are determined. -/
theorem Codec.determines (c : Codec) {bs : List UInt8} (h : bs.length ≤ viewerBufsize) :
    c.clz4.Determines (c.compress bs) := by
  intro out out' hout hout'
  rw [c.inverts bs out (by rw [hout]; exact h), c.inverts bs out' (by rw [hout']; exact h),
    GoSlice.view_overwrite, GoSlice.view_overwrite]

theorem cap_decodeRecords (clz4 : Clz4) (p : List UInt8) (round1 : GoSlice) :
    (decodeRecords clz4 p round1).2.cap = round1.cap := clz4.cap_eq p round1

theorem getElem?_fileBlocks (clz4 : Clz4) (base : Nat) (ps : List (List UInt8)) (k : Nat) :
    (fileBlocks clz4 base ps)[k]? =
      ps[k]?.map fun p ↦ createNewBlock (start 8 base ps k) (decodedRecords clz4 p) :=
  List.getElem?_mapIdx

/-! ### The invariant -/

section Invariant

variable {τ : Type} (V : ViewerEnv τ) (base : Nat) (ps : List (List UInt8))

/-- After serving a request the reader goes on with frame `n`, or has seen all of them. -/
def ReturnsTo (n currentOffset : Nat) (more : Bool) : Prop :=
  if more then currentOffset = start 8 base ps n else n = ps.length

/-- What is where the reader stands after handing on `n` blocks. -/
def ReaderAt.Ok (n cursor : Nat) (input : List UInt8) (published : Nat) : ReaderAt → Prop
  | .tell => cursor = start 8 base ps n
  | .drain currentOffset more =>
    ReturnsTo base ps n currentOffset more ∧ (more = true → cursor = currentOffset)
  | .fetch k currentOffset more =>
    ReturnsTo base ps n currentOffset more ∧ k < published ∧ cursor = start 8 base ps k
  | .decode k currentOffset more =>
    ReturnsTo base ps n currentOffset more ∧ k < published ∧ ps[k]? = some input
  | .rebuild k currentOffset more records =>
    ReturnsTo base ps n currentOffset more ∧ k < published ∧
      ∃ p, ps[k]? = some p ∧ records = decodedRecords V.clz4 p
  | .readNext currentOffset => currentOffset = start 8 base ps n ∧ cursor = currentOffset
  | .createBlock currentOffset =>
    currentOffset = start 8 base ps n ∧ ps[n]? = some input ∧ cursor = start 8 base ps (n + 1)
  | .send b => (fileBlocks V.clz4 base ps)[n]? = some b ∧ cursor = start 8 base ps (n + 1)

/-- What the consumer has made of the `n` blocks it was handed. -/
def ConsumerAt.Ok (n : Nat) (loaded : List (Block τ)) (context : List Record) :
    ConsumerAt τ → Prop
  | .receive => FirstLoads V ((fileBlocks V.clz4 base ps).take n) loaded context
  | .lift b => ∃ m, n = m + 1 ∧ (fileBlocks V.clz4 base ps)[m]? = some b ∧
      FirstLoads V ((fileBlocks V.clz4 base ps).take m) loaded context
  | .publish b =>
    FirstLoads V ((fileBlocks V.clz4 base ps).take n) (loaded ++ [b]) context

/-- The blocks past the consumer: published, then waiting for the main thread. -/
def LoaderState.loaded (s : LoaderState τ) : List (Block τ) :=
  s.blocks.map (·.block) ++ s.mainThreadWork

/-- The loader after handing on `n` blocks. -/
structure Loading (n : Nat) (s : LoaderState τ) : Prop where
  le : n ≤ ps.length
  input : s.input.cap = viewerBufsize
  round1 : s.round1.cap = viewerBufsize
  reader : s.reader.Ok V base ps n s.cursor s.input.view s.blocks.length
  consumer : s.consumer.Ok V base ps n s.loaded s.currentContext
  requests : ∀ k ∈ s.detailRequest, k < s.blocks.length
  vertices : ∀ b ∈ s.blocks, b.vertexData = none ∨ b.vertexData = some b.block.vertexData

variable {V base ps}

/-- Blocks are only ever added to the published ones. -/
theorem ReaderAt.Ok.mono {n cursor published published' : Nat} {input : List UInt8}
    {r : ReaderAt} (h : r.Ok V base ps n cursor input published)
    (hle : published ≤ published') : r.Ok V base ps n cursor input published' := by
  cases r with
  | fetch k off more => exact ⟨h.1, Nat.lt_of_lt_of_le h.2.1 hle, h.2.2⟩
  | decode k off more => exact ⟨h.1, Nat.lt_of_lt_of_le h.2.1 hle, h.2.2⟩
  | rebuild k off more records => exact ⟨h.1, Nat.lt_of_lt_of_le h.2.1 hle, h.2.2⟩
  | tell => exact h
  | drain off more => exact h
  | readNext off => exact h
  | createBlock off => exact h
  | send b => exact h

theorem length_fileBlocks (clz4 : Clz4) : (fileBlocks clz4 base ps).length = ps.length :=
  List.length_mapIdx

/-- The published blocks are the first loads of the file's first frames. -/
theorem Loading.firstLoads {n : Nat} {s : LoaderState τ} (h : Loading V base ps n s) :
    s.blocks.length ≤ n ∧ ∃ context,
      FirstLoads V ((fileBlocks V.clz4 base ps).take s.blocks.length) (s.blocks.map (·.block))
        context := by
  -- whatever the consumer is at, the published blocks begin what it has loaded
  obtain ⟨m, rest, context, hm, hloads⟩ : ∃ m rest context, m ≤ n ∧
      FirstLoads V ((fileBlocks V.clz4 base ps).take m) (s.blocks.map (·.block) ++ rest)
        context := by
    have hc := h.consumer
    rw [LoaderState.loaded] at hc
    cases hconsumer : s.consumer <;> rw [hconsumer] at hc
    case receive => exact ⟨n, _, _, Nat.le_refl n, hc⟩
    case lift b =>
      obtain ⟨m, rfl, -, hc⟩ := hc
      exact ⟨m, _, _, Nat.le_succ m, hc⟩
    case publish b =>
      rw [ConsumerAt.Ok, List.append_assoc] at hc
      exact ⟨n, _, _, Nat.le_refl n, hc⟩
  have hlen := hloads.length_eq
  rw [List.length_append, List.length_map, List.length_take] at hlen
  refine ⟨by omega, ?_⟩
  obtain ⟨context', htake⟩ := hloads.take s.blocks.length
  refine ⟨context', ?_⟩
  rwa [List.take_take, Nat.min_eq_left (by omega), List.take_left' (by simp)] at htake

/-- A published block was made of its frame's records. -/
theorem Loading.consumed {n : Nat} {s : LoaderState τ} (h : Loading V base ps n s) {k : Nat}
    (hk : k < s.blocks.length) :
    ∃ b p before after, s.blocks[k]? = some b ∧ ps[k]? = some p ∧
      consumeBlock V.stree V.rounding V.flags before
        (createNewBlock (start 8 base ps k) (decodedRecords V.clz4 p)) = .ok (b.block, after) := by
  obtain ⟨hle, context, hloads⟩ := h.firstLoads
  have hlt : k < ps.length := Nat.lt_of_lt_of_le hk (hle.trans h.le)
  have hraw : ((fileBlocks V.clz4 base ps).take s.blocks.length)[k]? =
      some (createNewBlock (start 8 base ps k) (decodedRecords V.clz4 ps[k])) := by
    rw [List.getElem?_take_of_lt hk, getElem?_fileBlocks, List.getElem?_eq_getElem hlt]
    rfl
  have hblock : (s.blocks.map (·.block))[k]? = some s.blocks[k].block := by
    rw [List.getElem?_map, List.getElem?_eq_getElem hk]
    rfl
  obtain ⟨before, after, hb⟩ := hloads.consumed hraw hblock
  exact ⟨s.blocks[k], ps[k], before, after, List.getElem?_eq_getElem hk,
    List.getElem?_eq_getElem hlt, hb⟩

/-- A published block has its frame's offset and was drawn from its frame's records. -/
theorem Loading.shown {n : Nat} {s : LoaderState τ} (h : Loading V base ps n s) {k : Nat}
    (hk : k < s.blocks.length) :
    ∃ b p, s.blocks[k]? = some b ∧ ps[k]? = some p ∧ b.block.fileOffset = start 8 base ps k ∧
      generateVertices V.rounding V.flags b.block.regions b.block.contextRecords
        (decodedRecords V.clz4 p).length (decodedRecords V.clz4 p) = .ok b.block.vertexData := by
  obtain ⟨b, p, before, after, hb, hp, hconsume⟩ := h.consumed hk
  obtain ⟨hoffset, hvertices⟩ := consumeBlock_ok hconsume
  exact ⟨b, p, hb, hp, hoffset, hvertices⟩

/-! ### Every step keeps it -/

theorem map_block_set {blocks : List (ShownBlock τ)} {k : Nat} {b : ShownBlock τ}
    (hb : blocks[k]? = some b) (vertexData : Option (List Vertex)) :
    (blocks.set k { b with vertexData }).map (·.block) = blocks.map (·.block) := by
  obtain ⟨hk, rfl⟩ := List.getElem?_eq_some_iff.mp hb
  rw [List.map_set]
  have hlt : k < (blocks.map (·.block)).length := by
    rw [List.length_map]
    exact hk
  have hself : (blocks.map (·.block))[k] = blocks[k].block := List.getElem_map ..
  rw [← hself, List.set_getElem_self]

/-- Dropping a block's vertices and drawing them as at first change nothing else. -/
theorem Loading.setVertices {n : Nat} {s : LoaderState τ} (h : Loading V base ps n s) {k : Nat}
    {b : ShownBlock τ} (hb : s.blocks[k]? = some b) {vertexData : Option (List Vertex)}
    (hv : vertexData = none ∨ vertexData = some b.block.vertexData) :
    Loading V base ps n { s with blocks := s.blocks.set k { b with vertexData } } where
  le := h.le
  input := h.input
  round1 := h.round1
  reader := by
    rw [List.length_set]
    exact h.reader
  consumer := by
    rw [LoaderState.loaded, map_block_set hb]
    exact h.consumer
  requests := by
    rw [List.length_set]
    exact h.requests
  vertices := by
    intro c hc
    rcases List.mem_or_eq_of_mem_set hc with hc | rfl
    · exact h.vertices c hc
    · exact hv

/-- The last step of a served request draws what the first load drew, and the descriptor is
back where the reader left the file. -/
theorem Loading.rebuild_step {n : Nat} {s : LoaderState τ} (h : Loading V base ps n s)
    {k off : Nat} {more : Bool} {records : List Record}
    (hreader : s.reader = .rebuild k off more records) :
    ∃ b, s.blocks[k]? = some b ∧ readerStep V s = some (.ok { s with
      blocks := s.blocks.set k { b with vertexData := some b.block.vertexData }
      cursor := off
      reader := .drain off more }) := by
  have hr := h.reader
  rw [hreader] at hr
  obtain ⟨-, hk, p, hp, rfl⟩ := hr
  obtain ⟨b, q, hb, hq, -, hvertices⟩ := h.shown hk
  cases hp.symm.trans hq
  refine ⟨b, hb, ?_⟩
  simp only [readerStep, hreader, hb, Option.map_some, hvertices]

section Reader

variable (hfile : Framed V.file base ps) (hclz4 : ∀ p ∈ ps, V.clz4.Determines p)

include hfile hclz4

/-- The reader never panics, and keeps the invariant. -/
theorem Loading.readerStep {n : Nat} {s : LoaderState τ} (h : Loading V base ps n s)
    {r : Except GoPanic (LoaderState τ)} (hs : readerStep V s = some r) :
    ∃ s', r = .ok s' ∧ Loading V base ps n s' := by
  have hr := h.reader
  cases hreader : s.reader with
  | tell =>
    rw [hreader] at hr
    simp only [Mema.readerStep, hreader] at hs
    cases hs
    exact ⟨_, rfl, { h with reader := ⟨hr, fun _ ↦ rfl⟩ }⟩
  | drain off more =>
    rw [hreader] at hr
    simp only [Mema.readerStep, hreader] at hs
    cases hqueue : s.detailRequest with
    | nil =>
      simp only [hqueue] at hs
      cases more with
      | true =>
        cases hs
        exact ⟨_, rfl, { h with
          reader := ⟨hr.1, hr.2 rfl⟩
          requests := fun _ hk ↦ absurd hk List.not_mem_nil }⟩
      | false =>
        cases hs
        exact ⟨_, rfl, h⟩
    | cons k rest =>
      have hk := h.requests k (by rw [hqueue]; exact List.mem_cons_self)
      obtain ⟨b, p, hb, hp, hoffset, -⟩ := h.shown hk
      simp only [hqueue, hb, Option.map_some] at hs
      cases hs
      refine ⟨_, rfl, { h with reader := ⟨hr.1, hk, hoffset⟩, requests := ?_ }⟩
      intro j hj
      exact h.requests j (by rw [hqueue]; exact List.mem_cons_of_mem k hj)
  | fetch k off more =>
    rw [hreader] at hr
    obtain ⟨hreturn, hk, hcursor⟩ := hr
    obtain ⟨b, p, hb, hp, -, -⟩ := h.shown hk
    obtain ⟨input', hread, hview, hcap⟩ := hfile.readBlock_next hp h.input
    simp only [Mema.readerStep, hreader, hcursor, hread] at hs
    cases hs
    exact ⟨_, rfl, { h with
      input := hcap
      reader := ⟨hreturn, hk, by rw [hview]; exact hp⟩ }⟩
  | decode k off more =>
    rw [hreader] at hr
    obtain ⟨hreturn, hk, hinput⟩ := hr
    have hdecoded := decodeRecords_determined
      (hclz4 _ (List.mem_of_getElem? hinput)) h.round1
    simp only [Mema.readerStep, hreader] at hs
    cases hs
    exact ⟨_, rfl, { h with
      round1 := (cap_decodeRecords _ _ _).trans h.round1
      reader := ⟨hreturn, hk, _, hinput, hdecoded⟩ }⟩
  | rebuild k off more records =>
    rw [hreader] at hr
    obtain ⟨b, hb, hstep⟩ := h.rebuild_step hreader
    rw [hstep] at hs
    cases hs
    have hset := h.setVertices hb (.inr rfl)
    exact ⟨_, rfl, { hset with reader := ⟨hr.1, fun _ ↦ rfl⟩ }⟩
  | readNext off =>
    rw [hreader] at hr
    obtain ⟨rfl, hcursor⟩ := hr
    by_cases hn : n < ps.length
    · obtain ⟨input', hread, hview, hcap⟩ :=
        hfile.readBlock_next (List.getElem?_eq_getElem hn) h.input
      simp only [Mema.readerStep, hreader, hcursor, hread] at hs
      cases hs
      refine ⟨_, rfl, { h with input := hcap, reader := ⟨rfl, ?_, rfl⟩ }⟩
      rw [hview, List.getElem?_eq_getElem hn]
    · have hend : n = ps.length := Nat.le_antisymm h.le (Nat.le_of_not_lt hn)
      simp only [Mema.readerStep, hreader, hcursor, hend, hfile.readBlock_eof] at hs
      cases hs
      exact ⟨_, rfl, { h with reader := ⟨hend, fun hf ↦ by cases hf⟩ }⟩
  | createBlock off =>
    rw [hreader] at hr
    obtain ⟨rfl, hinput, hcursor⟩ := hr
    have hdecoded := decodeRecords_determined
      (hclz4 _ (List.mem_of_getElem? hinput)) h.round1
    simp only [Mema.readerStep, hreader] at hs
    cases hs
    refine ⟨_, rfl, { h with
      round1 := (cap_decodeRecords _ _ _).trans h.round1
      reader := ⟨?_, hcursor⟩ }⟩
    rw [getElem?_fileBlocks, hinput, Option.map_some, hdecoded]
  | send b =>
    simp only [Mema.readerStep, hreader] at hs
    cases hs

end Reader

/-- The consumer takes a block when it waits for one. -/
theorem Loading.newBlock_step {n : Nat} {s s' : LoaderState τ} (h : Loading V base ps n s)
    (hs : loaderStep V .newBlock s = some (.ok s')) : Loading V base ps (n + 1) s' := by
  have hr := h.reader
  have hc := h.consumer
  simp only [loaderStep] at hs
  split at hs
  · next b hreader hconsumer =>
    rw [hreader] at hr
    rw [hconsumer] at hc
    cases hs
    have hlt := (List.getElem?_eq_some_iff.mp hr.1).1
    rw [length_fileBlocks] at hlt
    exact { h with le := hlt, reader := hr.2, consumer := ⟨n, rfl, hr.1, hc⟩ }
  · cases hs

/-- The consumer's work is a first load. -/
theorem Loading.consume_step {n : Nat} {s s' : LoaderState τ} (h : Loading V base ps n s)
    (hs : loaderStep V .consume s = some (.ok s')) : Loading V base ps n s' := by
  have hc := h.consumer
  simp only [loaderStep] at hs
  split at hs
  · next b hconsumer =>
    rw [hconsumer] at hc
    obtain ⟨m, rfl, hb, hloads⟩ := hc
    rw [Option.some.injEq] at hs
    cases hload : consumeBlock V.stree V.rounding V.flags s.currentContext b with
    | error p =>
      rw [hload] at hs
      cases hs
    | ok r =>
      rw [hload] at hs
      cases hs
      obtain ⟨hm, hget⟩ := List.getElem?_eq_some_iff.mp hb
      have hsnoc := hloads.snoc hload
      rw [← hget, List.take_append_getElem hm] at hsnoc
      exact { h with consumer := hsnoc }
  · cases hs

/-- Publication goes through the queue of the main thread, in order. -/
theorem Loading.publish_step {n : Nat} {s s' : LoaderState τ} (h : Loading V base ps n s)
    {a : LoaderAction} (ha : a = .schedule ∨ ∃ textured, a = .mainThread textured)
    (hs : loaderStep V a s = some (.ok s')) : Loading V base ps n s' := by
  have hc := h.consumer
  rcases ha with rfl | ⟨textured, rfl⟩
  · simp only [loaderStep] at hs
    split at hs
    · next b hconsumer =>
      rw [hconsumer] at hc
      split at hs
      · cases hs
        rw [ConsumerAt.Ok, LoaderState.loaded, List.append_assoc] at hc
        exact { h with consumer := hc }
      · cases hs
    · cases hs
  · simp only [loaderStep] at hs
    split at hs
    · cases hs
    · next b work hwork =>
      cases hs
      refine { h with reader := ?_, consumer := ?_, requests := ?_, vertices := ?_ }
      · exact h.reader.mono (by simp)
      · have hloaded (shown : ShownBlock τ) (hshown : shown.block = b) :
            s.loaded = (s.blocks ++ [shown]).map (·.block) ++ work := by
          simp [LoaderState.loaded, hwork, hshown]
        rw [hloaded ⟨b, if textured then none else some b.vertexData⟩ rfl] at hc
        exact hc
      · intro k hk
        rw [List.length_append]
        exact Nat.lt_add_right _ (h.requests k hk)
      · intro c hc
        rcases List.mem_append.mp hc with hc | hc
        · exact h.vertices c hc
        · rw [List.mem_singleton.mp hc]
          cases textured
          · exact .inr rfl
          · exact .inl rfl

/-- Every step keeps the invariant; handing on a block counts it. -/
theorem Loading.step (hfile : Framed V.file base ps) (hclz4 : ∀ p ∈ ps, V.clz4.Determines p)
    {n : Nat} {s s' : LoaderState τ} (h : Loading V base ps n s)
    {a : LoaderAction} (hs : loaderStep V a s = some (.ok s')) :
    ∃ n', Loading V base ps n' s' := by
  cases a with
  | reader =>
    obtain ⟨s'', hok, h'⟩ := h.readerStep hfile hclz4 hs
    cases hok
    exact ⟨n, h'⟩
  | newBlock => exact ⟨n + 1, h.newBlock_step hs⟩
  | consume => exact ⟨n, h.consume_step hs⟩
  | schedule => exact ⟨n, h.publish_step (.inl rfl) hs⟩
  | mainThread textured => exact ⟨n, h.publish_step (.inr ⟨textured, rfl⟩) hs⟩
  | request k =>
    simp only [loaderStep] at hs
    split at hs
    · next hk =>
      cases hs
      refine ⟨n, { h with requests := ?_ }⟩
      intro j hj
      rcases List.mem_append.mp hj with hj | hj
      · exact h.requests j hj
      · rw [List.mem_singleton.mp hj]
        exact hk.1
    · cases hs
  | dropVertices k =>
    obtain ⟨b, hb, hs⟩ := Option.map_eq_some_iff.mp hs
    cases hs
    exact ⟨n, h.setVertices hb (.inl rfl)⟩

/-! ### Every reachable state -/

/-- Offsets of the blocks the reader has handed on: published, queued, or with the consumer. -/
def LoaderState.handedOn (s : LoaderState τ) : List Nat :=
  s.loaded.map (·.fileOffset) ++
    match s.consumer with
    | .receive => []
    | .lift b => [b.fileOffset]
    | .publish b => [b.fileOffset]

/-- Whether the reader has seen the end of the file. -/
def ReaderAt.atEnd : ReaderAt → Bool
  | .drain _ more => !more
  | .fetch _ _ more => !more
  | .decode _ _ more => !more
  | .rebuild _ _ more _ => !more
  | _ => false

variable (V base ps)

/-- Publication in file order, and requests served from the block's own frame. -/
structure InFileOrder (s : LoaderState τ) : Prop where
  /-- The shown blocks are the first loads of the file's first frames, each at its start. -/
  firstLoads : ∃ context, FirstLoads V ((fileBlocks V.clz4 base ps).take s.blocks.length)
    (s.blocks.map (·.block)) context
  published : s.blocks.map (·.block.fileOffset) =
    ((List.range ps.length).map (start 8 base ps)).take s.blocks.length
  once : (s.blocks.map (·.block.fileOffset)).Nodup
  /-- At the end of the file every frame has been handed on. -/
  handedOn : s.reader.atEnd = true → s.handedOn = (List.range ps.length).map (start 8 base ps)
  /-- The vertices shown are those of the first load. -/
  vertices : ∀ b ∈ s.blocks, b.vertexData = none ∨ b.vertexData = some b.block.vertexData
  /-- A served request has its own block's frame in the input buffer. -/
  ownFrame : ∀ k off more, s.reader = .decode k off more → ps[k]? = some s.input.view
  /-- It ends with the vertices of the first load and the descriptor where it was. -/
  serves : ∀ k off more records, s.reader = .rebuild k off more records →
    ∃ b, s.blocks[k]? = some b ∧ loaderStep V .reader s = some (.ok { s with
      blocks := s.blocks.set k { b with vertexData := some b.block.vertexData }
      cursor := off
      reader := .drain off more })
  /-- The next frame to be read is the first that was not handed on. -/
  next : ∀ off, s.reader = .drain off true ∨ s.reader = .readNext off →
    s.cursor = off ∧ V.file.drop off = frames 8 (ps.drop s.handedOn.length)
  /-- The reader never panics. -/
  reads : ∀ p, loaderStep V .reader s ≠ some (.error p)

variable {V base ps}

private theorem map_fileOffset_fileBlocks (clz4 : Clz4) :
    (fileBlocks clz4 base ps).map (·.fileOffset) =
      (List.range ps.length).map (start 8 base ps) := by
  apply List.ext_getElem?
  intro k
  rw [List.getElem?_map, getElem?_fileBlocks, List.getElem?_map]
  by_cases hk : k < ps.length
  · rw [List.getElem?_eq_getElem hk, List.getElem?_range hk]
    rfl
  · rw [List.getElem?_eq_none (by omega), List.getElem?_eq_none (by simpa using hk)]
    rfl

/-- The offsets handed on are those of the first frames. -/
theorem Loading.handedOn_eq {n : Nat} {s : LoaderState τ} (h : Loading V base ps n s) :
    s.handedOn = ((List.range ps.length).map (start 8 base ps)).take n := by
  have hc := h.consumer
  rw [← map_fileOffset_fileBlocks V.clz4, ← List.map_take, LoaderState.handedOn]
  cases hconsumer : s.consumer with
  | receive =>
    rw [hconsumer] at hc
    rw [List.append_nil]
    exact hc.map_fileOffset
  | lift b =>
    rw [hconsumer] at hc
    obtain ⟨m, rfl, hb, hloads⟩ := hc
    obtain ⟨hm, rfl⟩ := List.getElem?_eq_some_iff.mp hb
    rw [hloads.map_fileOffset, ← List.take_append_getElem hm, List.map_append]
    rfl
  | publish b =>
    rw [hconsumer] at hc
    have hoffsets := hc.map_fileOffset
    rw [List.map_append] at hoffsets
    exact hoffsets

/-- The reader sees the end of the file after handing on all of it. -/
theorem ReaderAt.Ok.atEnd {n cursor published : Nat} {input : List UInt8} {r : ReaderAt}
    (h : r.Ok V base ps n cursor input published) (hend : r.atEnd = true) : n = ps.length := by
  have hreturns {off : Nat} {more : Bool} (hr : ReturnsTo base ps n off more)
      (hmore : (!more) = true) : n = ps.length := by
    cases more with
    | true => cases hmore
    | false => exact hr
  cases r with
  | drain off more => exact hreturns h.1 hend
  | fetch k off more => exact hreturns h.1 hend
  | decode k off more => exact hreturns h.1 hend
  | rebuild k off more records => exact hreturns h.1 hend
  | tell => cases hend
  | readNext off => cases hend
  | createBlock off => cases hend
  | send b => cases hend

theorem start_nodup : ((List.range ps.length).map (start 8 base ps)).Nodup := by
  apply List.Nodup.map_on _ List.nodup_range
  intro j hj k hk heq
  rw [List.mem_range] at hj hk
  rcases Nat.lt_trichotomy j k with hlt | hjk | hlt
  · have := start_lt 8 base (by decide) ps hlt (Nat.le_of_lt hk)
    omega
  · exact hjk
  · have := start_lt 8 base (by decide) ps hlt (Nat.le_of_lt hj)
    omega

theorem Loading.inFileOrder (hfile : Framed V.file base ps)
    (hclz4 : ∀ p ∈ ps, V.clz4.Determines p) {n : Nat} {s : LoaderState τ}
    (h : Loading V base ps n s) : InFileOrder V base ps s := by
  obtain ⟨hle, context, hloads⟩ := h.firstLoads
  have hpublished : s.blocks.map (·.block.fileOffset) =
      ((List.range ps.length).map (start 8 base ps)).take s.blocks.length := by
    rw [← map_fileOffset_fileBlocks V.clz4, ← List.map_take, ← hloads.map_fileOffset,
      List.map_map]
    rfl
  have hhanded : s.handedOn.length = n := by
    rw [h.handedOn_eq]
    simpa using h.le
  have hr := h.reader
  refine ⟨⟨context, hloads⟩, hpublished, ?_, ?_, h.vertices, ?_, ?_, ?_, ?_⟩
  · rw [hpublished]
    exact start_nodup.sublist (List.take_sublist _ _)
  · intro hend
    rw [h.handedOn_eq, hr.atEnd hend]
    exact List.take_of_length_le (by simp)
  · intro k off more hreader
    rw [hreader] at hr
    exact hr.2.2
  · intro k off more records hreader
    exact h.rebuild_step hreader
  · intro off hreader
    rw [hhanded]
    rcases hreader with hreader | hreader
    · rw [hreader] at hr
      obtain ⟨rfl, hcursor⟩ := hr
      exact ⟨hcursor rfl, hfile.drop_start n⟩
    · rw [hreader] at hr
      obtain ⟨rfl, hcursor⟩ := hr
      exact ⟨hcursor, hfile.drop_start n⟩
  · intro p hs
    obtain ⟨s', hok, -⟩ := h.readerStep hfile hclz4 hs
    cases hok

/-- The loader starts at the first frame with nothing handed on. -/
theorem loading_start (V : ViewerEnv τ) (base : Nat) (ps : List (List UInt8)) :
    Loading V base ps 0 (loaderStart base) where
  le := Nat.zero_le _
  input := GoSlice.cap_make 0 viewerBufsize (Nat.zero_le _)
  round1 := GoSlice.cap_make 1 viewerBufsize (by decide)
  reader := (start_zero 8 base ps).symm
  consumer := .nil
  requests := fun _ hk ↦ absurd hk List.not_mem_nil
  vertices := fun _ hb ↦ absurd hb List.not_mem_nil

/-- The invariant holds in every reachable state. -/
theorem loading_of_reachable (accepts : List UInt8 → Bool) {table : List UInt8}
    (htable : 0 ∉ table) (hfile : V.file = magicBytes ++ (table ++ 0 :: frames 8 ps))
    (hfits : ∀ p ∈ ps, p.length ≤ viewerBufsize)
    (hclz4 : ∀ p ∈ ps, V.clz4.Determines p) {s : LoaderState τ}
    (h : (loader V accepts).Reachable s) : ∃ n, Loading V (8 + table.length + 1) ps n s := by
  apply h.invariant
  · rintro s ⟨cursor, hcursor, rfl⟩
    rw [hfile, newProgramData_spec htable] at hcursor
    split at hcursor
    · cases hcursor
      exact ⟨0, loading_start V _ ps⟩
    · cases hcursor
  · rintro a s s' ⟨n, hn⟩ hs
    exact hn.step (Framed.of_header hfile hfits) hclz4 hs

/-- Under every interleaving of requests for published blocks with the reader, the consumer and
the main thread, the blocks shown are a prefix of the file's frames in file order, each once and
at its own offset, all frames are handed on by the end of the file, and a served request rebuilds
the vertices of its block's first load and leaves the next frame to be read, when the payloads are
determined. -/
theorem loader_inFileOrder (accepts : List UInt8 → Bool) {table : List UInt8}
    (htable : 0 ∉ table) (hfile : V.file = magicBytes ++ (table ++ 0 :: frames 8 ps))
    (hfits : ∀ p ∈ ps, p.length ≤ viewerBufsize)
    (hclz4 : ∀ p ∈ ps, V.clz4.Determines p) {s : LoaderState τ}
    (h : (loader V accepts).Reachable s) : InFileOrder V (8 + table.length + 1) ps s := by
  obtain ⟨n, hn⟩ := loading_of_reachable accepts htable hfile hfits hclz4 h
  exact hn.inFileOrder (Framed.of_header hfile hfits) hclz4

/-! ### A request served behind another block's load -/

section Served

variable (accepts : List UInt8 → Bool) {table p₀ : List UInt8} {block : Block τ}
  {context : List Record}

/-- Without requests the loader publishes the first frame. -/
theorem reachable_published (htable : 0 ∉ table) (haccepts : accepts table = true)
    (hfile : V.file = magicBytes ++ (table ++ 0 :: frames 8 ps))
    (hfits : ∀ p ∈ ps, p.length ≤ viewerBufsize) (hp : ps[0]? = some p₀)
    (hconsume : consumeBlock V.stree V.rounding V.flags []
      (createNewBlock (8 + table.length + 1) (decodedRecords V.clz4 p₀)) = .ok (block, context)) :
    ∃ input : GoSlice, input.cap = viewerBufsize ∧ (loader V accepts).Reachable
      ⟨start 8 (8 + table.length + 1) ps 1, input, (decodeRecords V.clz4 p₀ round1Buffer).2, .tell,
        .receive, context, [], [], [⟨block, some block.vertexData⟩]⟩ := by
  set base := 8 + table.length + 1 with hbase
  have hframed := Framed.of_header hfile hfits
  rw [← hbase] at hframed
  have hstart : (loader V accepts).start (loaderStart base) := by
    refine ⟨base, ?_, rfl⟩
    rw [hfile, newProgramData_spec htable, if_pos haccepts]
  have hcap : inputBuffer.cap = viewerBufsize := GoSlice.cap_make 0 viewerBufsize (Nat.zero_le _)
  obtain ⟨input, hread, hview, hinput⟩ := hframed.readBlock_next hp hcap
  rw [start_zero] at hread
  -- The reader reads and decodes the frame and hands it to the consumer, whose work the main
  -- thread then does.
  let raw := createNewBlock base (decodedRecords V.clz4 p₀)
  let next := start 8 base ps 1
  let round1 := (decodeRecords V.clz4 p₀ round1Buffer).2
  have h₁ : (loader V accepts).Reachable
      ⟨base, inputBuffer, round1Buffer, .drain base true, .receive, [], [], [], []⟩ :=
    (Machine.Reachable.start hstart).step (a := .reader) rfl
  have h₂ : (loader V accepts).Reachable
      ⟨base, inputBuffer, round1Buffer, .readNext base, .receive, [], [], [], []⟩ :=
    h₁.step (a := .reader) rfl
  have h₃ : (loader V accepts).Reachable
      ⟨next, input, round1Buffer, .createBlock base, .receive, [], [], [], []⟩ :=
    h₂.step (a := .reader) (by simp only [loader, loaderStep, Mema.readerStep, hread]; rfl)
  have h₄ : (loader V accepts).Reachable
      ⟨next, input, round1, .send raw, .receive, [], [], [], []⟩ :=
    h₃.step (a := .reader) (by simp only [loader, loaderStep, Mema.readerStep, hview]; rfl)
  have h₅ : (loader V accepts).Reachable
      ⟨next, input, round1, .tell, .lift raw, [], [], [], []⟩ := h₄.step (a := .newBlock) rfl
  have h₆ : (loader V accepts).Reachable
      ⟨next, input, round1, .tell, .publish block, context, [], [], []⟩ :=
    h₅.step (a := .consume) (by simp only [loader, loaderStep, raw, hconsume]; rfl)
  have h₇ : (loader V accepts).Reachable
      ⟨next, input, round1, .tell, .receive, context, [block], [], []⟩ :=
    h₆.step (a := .schedule) rfl
  exact ⟨input, hinput, h₇.step (a := .mainThread false) rfl⟩

/-- A request for the first block may be served when the second frame has been decoded: the first
is then decoded through the `round_1` that the second has left. -/
theorem reachable_served (htable : 0 ∉ table) (haccepts : accepts table = true)
    (hfile : V.file = magicBytes ++ (table ++ 0 :: frames 8 ps))
    (hfits : ∀ p ∈ ps, p.length ≤ viewerBufsize) (hp : ps[0]? = some p₀)
    {p₁ : List UInt8} (hp₁ : ps[1]? = some p₁)
    (hconsume : consumeBlock V.stree V.rounding V.flags []
      (createNewBlock (8 + table.length + 1) (decodedRecords V.clz4 p₀)) = .ok (block, context)) :
    ∃ s, (loader V accepts).Reachable s ∧ s.blocks = [⟨block, some block.vertexData⟩] ∧
      s.reader = .rebuild 0 (start 8 (8 + table.length + 1) ps 2) true
        (decodeRecords V.clz4 p₀
          (decodeRecords V.clz4 p₁ (decodeRecords V.clz4 p₀ round1Buffer).2).2).1 := by
  have hframed := Framed.of_header hfile hfits
  obtain ⟨input, hinput, hpublished⟩ :=
    reachable_published accepts htable haccepts hfile hfits hp hconsume
  obtain ⟨input₁, hread₁, hview₁, hinput₁⟩ := hframed.readBlock_next hp₁ hinput
  obtain ⟨input₂, hread₂, hview₂, -⟩ := hframed.readBlock_next hp hinput₁
  rw [start_zero] at hread₂
  have hoffset : block.fileOffset = 8 + table.length + 1 := (consumeBlock_ok hconsume).1
  set base := 8 + table.length + 1
  let c₁ := start 8 base ps 1
  let c₂ := start 8 base ps 2
  let round1 := (decodeRecords V.clz4 p₀ round1Buffer).2
  let round1' := (decodeRecords V.clz4 p₁ round1).2
  let raw := createNewBlock c₁ (decodeRecords V.clz4 p₁ round1).1
  let blocks : List (ShownBlock τ) := [⟨block, some block.vertexData⟩]
  have h₁ : (loader V accepts).Reachable
      ⟨c₁, input, round1, .drain c₁ true, .receive, context, [], [], blocks⟩ :=
    hpublished.step (a := .reader) rfl
  have h₂ : (loader V accepts).Reachable
      ⟨c₁, input, round1, .readNext c₁, .receive, context, [], [], blocks⟩ :=
    h₁.step (a := .reader) rfl
  have h₃ : (loader V accepts).Reachable
      ⟨c₂, input₁, round1, .createBlock c₁, .receive, context, [], [], blocks⟩ :=
    h₂.step (a := .reader) (by simp only [loader, loaderStep, Mema.readerStep, c₁, hread₁]; rfl)
  have h₄ : (loader V accepts).Reachable
      ⟨c₂, input₁, round1', .send raw, .receive, context, [], [], blocks⟩ :=
    h₃.step (a := .reader) (by simp only [loader, loaderStep, Mema.readerStep, hview₁]; rfl)
  have h₅ : (loader V accepts).Reachable
      ⟨c₂, input₁, round1', .tell, .lift raw, context, [], [], blocks⟩ :=
    h₄.step (a := .newBlock) rfl
  have h₆ : (loader V accepts).Reachable
      ⟨c₂, input₁, round1', .tell, .lift raw, context, [], [0], blocks⟩ :=
    h₅.step (a := .request 0) rfl
  have h₇ : (loader V accepts).Reachable
      ⟨c₂, input₁, round1', .drain c₂ true, .lift raw, context, [], [0], blocks⟩ :=
    h₆.step (a := .reader) rfl
  have h₈ : (loader V accepts).Reachable
      ⟨base, input₁, round1', .fetch 0 c₂ true, .lift raw, context, [], [], blocks⟩ := by
    rw [← hoffset]
    exact h₇.step (a := .reader) rfl
  have h₉ : (loader V accepts).Reachable
      ⟨c₁, input₂, round1', .decode 0 c₂ true, .lift raw, context, [], [], blocks⟩ :=
    h₈.step (a := .reader) (by simp only [loader, loaderStep, Mema.readerStep, hread₂]; rfl)
  exact ⟨_, h₉.step (a := .reader)
    (by simp only [loader, loaderStep, Mema.readerStep, hview₂]; rfl), rfl, rfl⟩

end Served

/-! ### What is drawn of accesses, and of a call -/

/-- A served request ends with what its block draws of the records that were decoded. -/
theorem draws_of_rebuild {s t : LoaderState τ} {k off : Nat} {more : Bool} {records : List Record}
    {b : ShownBlock τ} (hreader : s.reader = .rebuild k off more records)
    (hb : s.blocks[k]? = some b) (h : loaderStep V .reader s = some (.ok t)) :
    ∃ vertices, generateVertices V.rounding V.flags b.block.regions b.block.contextRecords
        records.length records = .ok vertices ∧
      s.blocks.set k { b with vertexData := some vertices } = t.blocks := by
  simp only [loaderStep, Mema.readerStep, hreader, hb, Option.map_some, Option.some.injEq] at h
  split at h
  · cases h
  · next vertices hvertices =>
    cases h
    exact ⟨vertices, hvertices, rfl⟩

/-- Nothing that is drawn of accesses is blue. -/
theorem colour_of_accesses {F : Rounding} {flags : ViewerFlags} {regions : Regions} {n pos : Nat}
    {stackDepth : Int} {records : List Record} {vertices : List Vertex}
    (h : generateLoop F flags regions n pos stackDepth records = .ok vertices)
    (haccesses : ∀ r ∈ records, r.type = MEMA_ACCESS) : ∀ v ∈ vertices, v.colour.2.2 = 0 := by
  induction n generalizing pos stackDepth records vertices with
  | zero =>
    cases h
    exact fun v hv ↦ absurd hv List.not_mem_nil
  | succ n ih =>
    cases records with
    | nil => cases h
    | cons r records =>
      obtain ⟨vertex, hvertex, h⟩ := ok_of_bind h
      obtain ⟨rest, hrest, h⟩ := ok_of_bind h
      cases h
      intro v hv
      rcases List.mem_append.mp hv with hv | hv
      · rw [recordVertex, if_pos (haccesses r List.mem_cons_self), accessVertex] at hvertex
        dsimp only at hvertex
        split at hvertex
        · cases hvertex
        · split at hvertex
          · cases hvertex
            exact absurd hv List.not_mem_nil
          · split at hvertex
            · cases hvertex
            · cases hvertex
              rw [List.mem_singleton.mp hv]
              rfl
      · exact ih hrest (fun q hq ↦ haccesses q (List.mem_cons_of_mem r hq)) v hv

/-- A call is drawn in blue. -/
theorem colour_of_call {F : Rounding} {flags : ViewerFlags} {regions : Regions} {n pos : Nat}
    {stackDepth : Int} {r : Record} {records : List Record} {vertices : List Vertex}
    (h : generateLoop F flags regions (n + 1) pos stackDepth (r :: records) = .ok vertices)
    (henter : r.type = MEMA_FUNC_ENTER) : ∃ v ∈ vertices, v.colour.2.2 = 255 := by
  obtain ⟨vertex, hvertex, h⟩ := ok_of_bind h
  obtain ⟨rest, -, h⟩ := ok_of_bind h
  rw [recordVertex, if_neg (by rw [henter]; decide), if_pos henter] at hvertex
  cases hvertex
  cases h
  exact ⟨_, List.mem_cons_self, rfl⟩

end Invariant

/-! ### One function entry -/

/-- The payload of one entry into the function at 16. -/
def entryPayload : List UInt8 := literalStream (literalStream (Slot.bytesOf [enterRecord 16]))

theorem length_entryPayload : entryPayload.length ≤ viewerBufsize := by decide

theorem view_entryPayload {round1 : GoSlice} (hcap : round1.cap = viewerBufsize) :
    (lz4Clz4.uncompressUnknownOutputSize entryPayload round1).view =
      literalStream (Slot.bytesOf [enterRecord 16]) := by
  have hint : (literalStream (Slot.bytesOf [enterRecord 16])).length < intLimit := by decide
  have hfits : (literalStream (Slot.bytesOf [enterRecord 16])).length ≤ round1.cap := by
    rw [hcap]
    decide
  rw [entryPayload, lz4Clz4_literalStream hint hfits, GoSlice.view_overwrite]

theorem determines_entryPayload : lz4Clz4.Determines entryPayload := fun _ _ hout hout' ↦
  (view_entryPayload hout).trans (view_entryPayload hout').symm

/-- The viewer takes the block to be full. -/
theorem decodedRecords_entryPayload :
    decodedRecords lz4Clz4 entryPayload = padded [enterRecord 16] :=
  decodeRecords_literalStream (by decide) (view_entryPayload (GoSlice.cap_make ..))

theorem padded_entry : padded [enterRecord 16] =
    enterRecord 16 :: List.replicate (expectedNrec - 1) Slot.zero := by
  rw [padded, List.singleton_append, List.length_singleton]

theorem type_zeros {n : Nat} : ∀ r ∈ List.replicate n Slot.zero, Record.type r = MEMA_ACCESS := by
  intro r hr
  rw [(List.mem_replicate.mp hr).2]
  exact Slot.get_zero _

/-- The consumer takes the block of that entry and of accesses. -/
theorem exists_consumeBlock_entry {τ : Type} (V : ViewerEnv τ) (hps : V.flags.pageSize = 4096)
    (offset : Nat) : ∃ block, consumeBlock V.stree V.rounding V.flags []
      (createNewBlock offset (padded [enterRecord 16])) =
        .ok (block, if V.flags.useStree then [enterRecord 16] else []) := by
  have hreplay : replay [] ((padded [enterRecord 16]).map Record.token) = some [enterRecord 16] := by
    have htoken : (enterRecord 16).token = .enter (enterRecord 16) := by decide
    rw [padded, List.singleton_append, List.map_cons, htoken, replay_enter]
    exact replay_accesses type_zeros _
  have hlen : (padded [enterRecord 16]).length = expectedNrec := by
    rw [padded, List.length_append, List.length_replicate]
    decide
  refine consumeBlock_known V.stree V.rounding ?_ ?_
    (b := createNewBlock offset (padded [enterRecord 16])) hlen hlen ?_ hreplay
  · rw [hps]
    decide
  · rw [hps]
    decide
  · intro r hr
    rcases List.mem_append.mp hr with hr | hr
    · rw [List.mem_singleton.mp hr]
      exact .inr (.inl (by decide))
    · exact .inl (type_zeros r hr)

/-! ### Two frames -/

/-- A viewer of a file with two frames, without `-stree`. -/
private def twoFrames (p₀ p₁ : List UInt8) : ViewerEnv (List Spans.Span) :=
  ⟨Stree.listing, .none, .default, lz4Clz4, magicBytes ++ ([] ++ 0 :: frames 8 [p₀, p₁])⟩

/-- Two function entries: the first block is published and a request for it is being served. -/
theorem loader_inFileOrder_entries : ∃ s b off records,
    (loader (twoFrames entryPayload entryPayload) fun _ ↦ true).Reachable s ∧ s.blocks = [b] ∧
      s.reader = .rebuild 0 off true records ∧
      InFileOrder (twoFrames entryPayload entryPayload) 9 [entryPayload, entryPayload] s := by
  have htable : (0 : UInt8) ∉ ([] : List UInt8) := List.not_mem_nil
  have hmem : ∀ p ∈ [entryPayload, entryPayload], p = entryPayload := by simp
  have hfits : ∀ p ∈ [entryPayload, entryPayload], p.length ≤ viewerBufsize := by
    intro p hp
    rw [hmem p hp]
    exact length_entryPayload
  have hclz4 : ∀ p ∈ [entryPayload, entryPayload], lz4Clz4.Determines p := by
    intro p hp
    rw [hmem p hp]
    exact determines_entryPayload
  obtain ⟨block, hconsume⟩ :=
    exists_consumeBlock_entry (twoFrames entryPayload entryPayload) rfl 9
  rw [← decodedRecords_entryPayload] at hconsume
  obtain ⟨s, hs, hblocks, hreader⟩ :=
    reachable_served (V := twoFrames entryPayload entryPayload) (fun _ ↦ true) htable rfl rfl
      hfits rfl rfl hconsume
  exact ⟨s, _, _, _, hs, hblocks, hreader,
    loader_inFileOrder (V := twoFrames entryPayload entryPayload) (fun _ ↦ true) htable rfl hfits
      hclz4 hs⟩

/-- A token that announces a literal, and the end of the input. -/
private def cutPayload : List UInt8 := [16]

private theorem lz4Clz4_cutPayload (out : GoSlice) :
    lz4Clz4.uncompressUnknownOutputSize cutPayload out = out := by
  apply lz4Clz4_refused
  intro high v h
  have hparse : parseSequence out.cap ([] : List UInt8).length 16 [] = .refused [] := by
    have hread : readLength ((16 : UInt8).toNat / 16) [] = (1, []) := rfl
    rw [parseSequence, hread]
    dsimp only
    rw [if_neg (by decide), if_pos (.inr (by decide)), if_pos (.inr (by decide))]
  exact ⟨_, h.of_refused hparse⟩

/-- Read first, it leaves `round_1` as it was made. -/
private theorem decodedRecords_cutPayload : decodedRecords lz4Clz4 cutPayload = padded [] :=
  @decodeRecords_refused cutPayload 1 (by decide)

/-- A payload that is refused, and one function entry: reloaded behind the second frame, the first
block is drawn with the records of the second. -/
theorem reload_draws_other_block :
    ¬ ∀ s, (loader (twoFrames cutPayload entryPayload) fun _ ↦ true).Reachable s →
      InFileOrder (twoFrames cutPayload entryPayload) 9 [cutPayload, entryPayload] s := by
  intro hall
  have htable : (0 : UInt8) ∉ ([] : List UInt8) := List.not_mem_nil
  have hfits : ∀ p ∈ [cutPayload, entryPayload], p.length ≤ viewerBufsize := by
    intro p hp
    rcases List.mem_pair.mp hp with rfl | rfl
    · decide
    · exact length_entryPayload
  have haccesses : ∀ r ∈ padded [], Record.type r = MEMA_ACCESS := type_zeros
  have hlen : (padded []).length = expectedNrec := List.length_replicate ..
  have hps : ViewerFlags.default.pageSize ≠ 0 := by decide
  obtain ⟨block, hconsume⟩ := consumeBlock_known Stree.listing .none hps (by decide)
    (b := createNewBlock 9 (padded [])) hlen hlen (fun r hr ↦ .inl (haccesses r hr))
    (replay_accesses haccesses [])
  rw [← decodedRecords_cutPayload] at hconsume
  obtain ⟨s, hs, hblocks, hreader⟩ := reachable_served (V := twoFrames cutPayload entryPayload)
    (fun _ ↦ true) htable rfl rfl hfits rfl rfl hconsume
  -- the records that the request decodes are those of the second frame
  have hrecords : (decodeRecords lz4Clz4 cutPayload (decodeRecords lz4Clz4 entryPayload
      (decodeRecords lz4Clz4 cutPayload round1Buffer).2).2).1 = padded [enterRecord 16] := by
    apply decodeRecords_literalStream (by decide)
    rw [lz4Clz4_cutPayload]
    apply view_entryPayload
    rw [cap_decodeRecords]
    exact GoSlice.cap_make ..
  obtain ⟨b, hb, hserves⟩ := (hall s hs).serves _ _ _ _ hreader
  have hb' := hb
  rw [hblocks] at hb'
  cases hb'
  obtain ⟨vertices, hdraw, hset⟩ := draws_of_rebuild hreader hb hserves
  have hsame : vertices = block.vertexData := by
    simpa [hblocks] using hset
  subst hsame
  rw [twoFrames, hrecords, generateVertices, padded_entry, List.length_cons] at hdraw
  rw [decodedRecords_cutPayload] at hconsume
  have hfirst := (consumeBlock_ok (V := twoFrames cutPayload entryPayload) hconsume).2
  obtain ⟨v, hv, hblue⟩ := colour_of_call hdraw (by decide)
  have hnone := colour_of_accesses hfirst haccesses v hv
  rw [hblue] at hnone
  cases hnone

end Mema
