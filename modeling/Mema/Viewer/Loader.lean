import Mema.Lib.Machine
import Mema.Viewer.Vertices

/-!
# Loading and reloading under interleaving

`memaviz/data.go:113–244`, `block.go:218–223` and `main.go:48–60`: the reading goroutine, the
consumer of new blocks and the main thread, joined by the three channels `new_block`,
`main_thread_work` and `detail_request`. Texture work is left out; it only delays the steps here.
-/

namespace Mema

/-- What a viewer is started with. -/
structure ViewerEnv (τ : Type) where
  stree : Stree τ
  rounding : Rounding
  flags : ViewerFlags
  clz4 : Clz4
  file : List UInt8

/-- A block the viewer shows: as its first load left it, and its `vertex_data` now. -/
structure ShownBlock (τ : Type) where
  block : Block τ
  vertexData : Option (List Vertex)

/-- Where the reading goroutine stands. `more` tells the loop over the file from the loop after
its end, `k` is the block of the request being served. -/
inductive ReaderAt
  | tell
  | drain (currentOffset : Nat) (more : Bool)
  | fetch (k currentOffset : Nat) (more : Bool)
  | decode (k currentOffset : Nat) (more : Bool)
  | rebuild (k currentOffset : Nat) (more : Bool) (records : List Record)
  | readNext (currentOffset : Nat)
  | createBlock (currentOffset : Nat)
  | send (b : RawBlock)

/-- Where the consumer stands: waiting, at work on a block, or publishing it. -/
inductive ConsumerAt (τ : Type)
  | receive
  | lift (b : RawBlock)
  | publish (b : Block τ)

/-- The descriptor, the shared buffers, the goroutines and the channels. Unbuffered `new_block`
holds nothing. -/
structure LoaderState (τ : Type) where
  cursor : Nat
  input : GoSlice
  round1 : GoSlice
  reader : ReaderAt
  consumer : ConsumerAt τ
  currentContext : List Record
  mainThreadWork : List (Block τ)
  detailRequest : List Nat
  blocks : List (ShownBlock τ)

/-- One step of one of the parties. -/
inductive LoaderAction
  | reader
  | newBlock
  | consume
  | schedule
  | mainThread (textured : Bool)
  | request (k : Nat)
  | dropVertices (k : Nat)

/-- Capacity of `main_thread_work`, `main.go:48`. -/
def mainThreadWorkCap : Nat := 10

/-- Capacity of `detail_request`, `data.go:31`. -/
def detailRequestCap : Nat := 1000

section Steps

variable {τ : Type} (V : ViewerEnv τ)

/-- The reading goroutine, `data.go:202–244`, up to its next shared action. A request names a
block by its place among the published ones. -/
def readerStep (s : LoaderState τ) : Option (Except GoPanic (LoaderState τ)) :=
  match s.reader with
  | .tell => some (.ok { s with reader := .drain s.cursor true })
  | .drain currentOffset more =>
    match s.detailRequest with
    | [] => if more then some (.ok { s with reader := .readNext currentOffset }) else some (.ok s)
    | k :: rest =>
      s.blocks[k]?.map fun b ↦ .ok { s with
        detailRequest := rest
        cursor := b.block.fileOffset
        reader := .fetch k currentOffset more }
  | .fetch k currentOffset more =>
    match readBlock V.file s.cursor s.input with
    | .error p => some (.error p)
    | .ok none => some (.error .readBlockFailed)
    | .ok (some (cursor, input)) => some (.ok { s with
        cursor := cursor
        input := input
        reader := .decode k currentOffset more })
  | .decode k currentOffset more =>
    let (records, round1) := decodeRecords V.clz4 s.input.view s.round1
    some (.ok { s with round1 := round1, reader := .rebuild k currentOffset more records })
  | .rebuild k currentOffset more records =>
    s.blocks[k]?.map fun b ↦
      match generateVertices V.rounding V.flags b.block.regions b.block.contextRecords
        records.length records with
      | .error p => .error p
      | .ok vertices => .ok { s with
          blocks := s.blocks.set k { b with vertexData := some vertices }
          cursor := currentOffset
          reader := .drain currentOffset more }
  | .readNext currentOffset =>
    match readBlock V.file s.cursor s.input with
    | .error p => some (.error p)
    | .ok none => some (.ok { s with reader := .drain 0 false })
    | .ok (some (cursor, input)) => some (.ok { s with
        cursor := cursor
        input := input
        reader := .createBlock currentOffset })
  | .createBlock currentOffset =>
    let (records, round1) := decodeRecords V.clz4 s.input.view s.round1
    some (.ok { s with
      round1 := round1
      reader := .send (createNewBlock currentOffset records) })
  | .send _ => none

/-- The steps of the loader. The main thread asks for published blocks only; building a block's
texture, before or after it is published, and drawing without details drop its vertices. -/
def loaderStep (a : LoaderAction) (s : LoaderState τ) :
    Option (Except GoPanic (LoaderState τ)) :=
  match a with
  | .reader => readerStep V s
  | .newBlock =>
    match s.reader, s.consumer with
    | .send b, .receive => some (.ok { s with reader := .tell, consumer := .lift b })
    | _, _ => none
  | .consume =>
    match s.consumer with
    | .lift b => some <| (consumeBlock V.stree V.rounding V.flags s.currentContext b).map
        fun r ↦ { s with consumer := .publish r.1, currentContext := r.2 }
    | _ => none
  | .schedule =>
    match s.consumer with
    | .publish b =>
      if s.mainThreadWork.length < mainThreadWorkCap then
        some (.ok { s with consumer := .receive, mainThreadWork := s.mainThreadWork ++ [b] })
      else none
    | _ => none
  | .mainThread textured =>
    match s.mainThreadWork with
    | [] => none
    | b :: work => some (.ok { s with
        mainThreadWork := work
        blocks := s.blocks ++ [⟨b, if textured then none else some b.vertexData⟩] })
  | .request k =>
    if k < s.blocks.length ∧ s.detailRequest.length < detailRequestCap then
      some (.ok { s with detailRequest := s.detailRequest ++ [k] })
    else none
  | .dropVertices k =>
    s.blocks[k]?.map fun b ↦ .ok { s with blocks := s.blocks.set k { b with vertexData := none } }

/-- The loader as `NewProgramData` starts it: the descriptor at the first frame, fresh buffers. -/
def loaderStart (cursor : Nat) : LoaderState τ where
  cursor := cursor
  input := inputBuffer
  round1 := round1Buffer
  reader := .tell
  consumer := .receive
  currentContext := []
  mainThreadWork := []
  detailRequest := []
  blocks := []

/-- The loader of a file whose page table is read by `accepts`. -/
def loader (accepts : List UInt8 → Bool) : Machine (LoaderState τ) LoaderAction GoPanic where
  start s := ∃ cursor, newProgramData accepts V.file = .ok cursor ∧ s = loaderStart cursor
  step := loaderStep V

end Steps

end Mema
