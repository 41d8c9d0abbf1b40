import Mathlib.Logic.Function.Basic
import Mema.Viewer.Drawing
import Mema.Viewer.Loader

/-!
# The viewer's goroutines

`memaviz/block.go:144–335`, `data.go:130–300` and `main.go:47–61`: the main thread with its frames
and its queued work, the reading goroutine, the consumer of new blocks and the goroutines that
ask for textures. A block is its place in the file; of its contents only the presence of a texture
and of vertex data is kept. `sync.Once.Do` runs its function and then marks itself done; around a
request for a texture the two are one step. The mutex of a `Once` is left out: its unlock behind
the mark is fatal when another goroutine has replaced the `Once`. Memory is taken to be available.
-/

namespace Mema.Viewer

/-- Ways drawing panics. -/
inductive Fault
  | indexOutOfRange
  | nilVertexData
  deriving DecidableEq, Repr

/-- A function queued for the main thread: append a block, or build its texture. -/
inductive Work
  | publish (k : Nat)
  | texture (k : Nat)
  deriving DecidableEq, Repr

/-- Where the main thread stands in `Block.Draw`, `block.go:225–335`. -/
inductive DrawStage
  | texture | vertices | once | send | mark | quad | unload | points
  deriving DecidableEq, Repr

/-- Where it stands in `BuildTexture` and the work around it, `block.go:144–216`. -/
inductive BuildStage
  | newTexture | render | release | reset
  deriving DecidableEq, Repr

/-- Where the main thread stands in a frame: before it, in the loop of `ProgramData.Draw`, in
`Block.Draw`, in `DoMainThreadWork`, or at a texture. -/
inductive MainAt
  | frame
  | blocks (detailed : Bool) (rest : List Int)
  | drawing (stage : DrawStage) (k : Nat) (detailed : Bool) (rest : List Int)
  | working
  | building (stage : BuildStage) (k : Nat)
  deriving DecidableEq, Repr

/-- Where a detail request stands that the reader has received, `data.go:207–218`. -/
inductive ServeStage
  | decode | vertices | reset
  deriving DecidableEq, Repr

/-- Where the reading goroutine stands. `more` tells the loop over the file from the one after. -/
inductive ReaderAt
  | drain (more : Bool)
  | serve (stage : ServeStage) (k : Nat) (more : Bool)
  | read
  | send (k : Nat)
  deriving DecidableEq, Repr

/-- Where the consumer of new blocks stands, `data.go:131–152`. -/
inductive ConsumerAt
  | receive
  | lift (k : Nat)
  | texture (k : Nat)
  | publish (k : Nat)
  deriving DecidableEq, Repr

/-- The fields of each block, the goroutines and the channels. `textureOnce` and `verticesOnce`
are the done marks of `requests`; unbuffered `new_block` holds nothing. How often the texture of
a block was built is kept beside them. -/
structure State where
  tex : Nat → Bool
  vertexData : Nat → Bool
  detailNeeded : Nat → Bool
  textureOnce : Nat → Bool
  verticesOnce : Nat → Bool
  textureBuilds : Nat → Nat
  main : MainAt
  reader : ReaderAt
  consumer : ConsumerAt
  framesRead : Nat
  textureRequests : List Nat
  mainThreadWork : List Work
  detailRequest : List Nat
  blocks : List Nat

/-- One step of one of the parties. -/
inductive Action
  | draw (startIndex n : Int)
  | main
  | endWork
  | reader
  | newBlock
  | consumer
  | textureRequest (k : Nat)
  deriving DecidableEq, Repr

open Function

namespace State

/-- `RequestTexture`, `block.go:203–216`: once, a goroutine is started that will send the work. -/
def requestTexture (s : State) (k : Nat) : State :=
  if s.textureOnce k then s
  else { s with
    textureOnce := update s.textureOnce k true
    textureRequests := s.textureRequests ++ [k] }

/-- A step inside `Block.Draw`. Only the send may have to wait. -/
def drawStep (s : State) (stage : DrawStage) (k : Nat) (detailed : Bool) (rest : List Int) :
    Option State :=
  match stage with
  | .texture =>
    let s := if s.tex k then s else s.requestTexture k
    some { s with main := .drawing .vertices k detailed rest }
  | .vertices =>
    let stage := if detailed && !s.vertexData k then DrawStage.once else DrawStage.quad
    some { s with
      detailNeeded := update s.detailNeeded k detailed
      main := .drawing stage k detailed rest }
  | .once =>
    let stage := if s.verticesOnce k then DrawStage.quad else DrawStage.send
    some { s with main := .drawing stage k detailed rest }
  | .send =>
    if s.detailRequest.length < detailRequestCap then
      some { s with
        detailRequest := s.detailRequest ++ [k]
        main := .drawing .mark k detailed rest }
    else none
  | .mark =>
    some { s with
      verticesOnce := update s.verticesOnce k true
      main := .drawing .quad k detailed rest }
  | .quad =>
    let stage := if s.tex k && (!detailed || !s.vertexData k) then DrawStage.unload
      else DrawStage.points
    some { s with main := .drawing stage k detailed rest }
  | .unload =>
    let vertexData := if s.vertexData k && !s.detailNeeded k then update s.vertexData k false
      else s.vertexData
    some { s with vertexData := vertexData, main := .drawing .points k detailed rest }
  | .points => some { s with main := .blocks detailed rest }

/-- A step of `BuildTexture`, and of the reset after it. -/
def buildStep (s : State) (stage : BuildStage) (k : Nat) : Except Fault State :=
  match stage with
  | .newTexture => .ok { s with
      tex := update s.tex k true
      textureBuilds := update s.textureBuilds k (s.textureBuilds k + 1)
      main := .building .render k }
  | .render =>
    if s.vertexData k then .ok { s with main := .building .release k }
    else .error .nilVertexData
  | .release =>
    let vertexData := if s.detailNeeded k then s.vertexData else update s.vertexData k false
    .ok { s with vertexData := vertexData, main := .building .reset k }
  | .reset => .ok { s with textureOnce := update s.textureOnce k false, main := .working }

/-- A step of the main thread inside a frame. -/
def mainStep (s : State) : Option (Except Fault State) :=
  match s.main with
  | .frame => none
  | .blocks _ [] => some (.ok { s with main := .working })
  | .blocks detailed (i :: rest) =>
    match goIndex s.blocks i with
    | none => some (.error .indexOutOfRange)
    | some k => some (.ok { s with main := .drawing .texture k detailed rest })
  | .drawing stage k detailed rest => (s.drawStep stage k detailed rest).map .ok
  | .working =>
    match s.mainThreadWork with
    | [] => none
    | .publish k :: work => some (.ok { s with
        mainThreadWork := work
        blocks := s.blocks ++ [k] })
    | .texture k :: work => some (.ok { s with
        mainThreadWork := work
        main := .building .newTexture k })
  | .building stage k => some (s.buildStep stage k)

/-- A step of the reading goroutine of a file of `n` frames. -/
def readerStep (n : Nat) (s : State) : Option State :=
  match s.reader with
  | .drain more =>
    match s.detailRequest with
    | k :: rest => some { s with detailRequest := rest, reader := .serve .decode k more }
    | [] => if more then some { s with reader := .read } else some s
  | .serve .decode k more => some { s with reader := .serve .vertices k more }
  | .serve .vertices k more => some { s with
      vertexData := update s.vertexData k true
      reader := .serve .reset k more }
  | .serve .reset k more => some { s with
      verticesOnce := update s.verticesOnce k false
      reader := .drain more }
  | .read =>
    if s.framesRead < n then some { s with
      framesRead := s.framesRead + 1
      reader := .send s.framesRead }
    else some { s with reader := .drain false }
  | .send _ => none

/-- A step of the consumer of new blocks. -/
def consumerStep (s : State) : Option State :=
  match s.consumer with
  | .receive => none
  | .lift k => some { s with vertexData := update s.vertexData k true, consumer := .texture k }
  | .texture k => some { s.requestTexture k with consumer := .publish k }
  | .publish k =>
    if s.mainThreadWork.length < mainThreadWorkCap then some { s with
      mainThreadWork := s.mainThreadWork ++ [.publish k]
      consumer := .receive }
    else none

/-- The steps of the viewer. The main thread may draw any range in a frame, and stop working on
its queue at any time. -/
def step (n : Nat) (a : Action) (s : State) : Option (Except Fault State) :=
  match a with
  | .draw startIndex m =>
    let r := drawRange startIndex m s.blocks.length
    if s.main = .frame then some (.ok { s with main := .blocks r.detailed r.indices }) else none
  | .main => s.mainStep
  | .endWork => if s.main = .working then some (.ok { s with main := .frame }) else none
  | .reader => (s.readerStep n).map .ok
  | .newBlock =>
    match s.reader, s.consumer with
    | .send k, .receive => some (.ok { s with reader := .drain true, consumer := .lift k })
    | _, _ => none
  | .consumer => s.consumerStep.map .ok
  | .textureRequest k =>
    if k ∈ s.textureRequests ∧ s.mainThreadWork.length < mainThreadWorkCap then
      some (.ok { s with
        textureRequests := s.textureRequests.erase k
        mainThreadWork := s.mainThreadWork ++ [.texture k] })
    else none

/-- The viewer as `NewProgramData` and `main_loop` start it. -/
def started : State where
  tex _ := false
  vertexData _ := false
  detailNeeded _ := false
  textureOnce _ := false
  verticesOnce _ := false
  textureBuilds _ := 0
  main := .frame
  reader := .drain true
  consumer := .receive
  framesRead := 0
  textureRequests := []
  mainThreadWork := []
  detailRequest := []
  blocks := []

end State

/-- The viewer of a file of `n` frames. -/
def viewer (n : Nat) : Machine State Action Fault where
  start s := s = State.started
  step := State.step n

end Mema.Viewer
