import Mathlib.Data.List.ReduceOption
import Mema.Memadump.Instrument

/-!
# The instrumented superblock traces the original's events

The reference merges a read with the write right after it and nothing else; the buffer of
`md_main.c:667–775` produces exactly that, whatever its capacity.
-/

namespace Mema.Memadump

open Coalesce

/-! ### Reference events of a statement -/

/-- A read and a write of the same atom and size are one modify. -/
def Event.merge (e f : Event) : Option Event :=
  if e.ekind = .Dr ∧ f.ekind = .Dw ∧ e.size = f.size ∧ e.addr.eqIRAtom f.addr then
    some { e with ekind := .Dm }
  else none

/-- The events of a statement in order; exits are barriers, and so is a load-linked once it has
read. -/
def IRStmt.items (vex : Vex) : IRStmt → List (Item Event)
  | .iMark addr len => [.event ⟨.Ir, mkIRExprHWord addr, len.toNat⟩]
  | .wrTmp _ (.load ty addr) => [.event ⟨.Dr, addr, vex.sizeofIRType ty⟩]
  | .store addr data => [.event ⟨.Dw, addr, vex.sizeofIRType (vex.typeOfIRExpr data)⟩]
  | .dirty ⟨_, .Read, some addr, size, _⟩ => [.event ⟨.Dr, addr, size⟩]
  | .dirty ⟨_, .Write, some addr, size, _⟩ => [.event ⟨.Dw, addr, size⟩]
  | .dirty ⟨_, .Modify, some addr, size, _⟩ =>
    [.event ⟨.Dr, addr, size⟩, .event ⟨.Dw, addr, size⟩]
  | .cas ⟨_, _, some addr, _, _, dataHi, some dataLo⟩ =>
    let size := vex.sizeofIRType (vex.typeOfIRExpr dataLo)
    let size := if dataHi.isSome then size * 2 else size
    [.event ⟨.Dr, addr, size⟩, .event ⟨.Dw, addr, size⟩]
  | .llsc result addr none =>
    [.event ⟨.Dr, addr, vex.sizeofIRType (vex.typeOfIRTemp result)⟩, .barrier]
  | .llsc _ addr (some data) => [.event ⟨.Dw, addr, vex.sizeofIRType (vex.typeOfIRExpr data)⟩]
  | .exit _ _ => [.barrier]
  | _ => []

/-- The type of a counted operation has an index. -/
def countable (type : IRType) : Bool := (type2index type).isSome

/-- What the instrumentation asserts of a statement after an `IMark` at `iaddr`. -/
def IRStmt.asserted (opts : Options) (vex : Vex) (iaddr : UInt64) : IRStmt → Bool
  | .iMark _ len => instrSizeOk vex len
  | .wrTmp _ data =>
    (match data with
      | .load ty addr => accessOk addr (vex.sizeofIRType ty)
      | _ => true) &&
    vex.typeOfIRExpr data != .INVALID &&
    (data.countedOp.isNone || countable (vex.typeOfIRExpr data))
  | .store addr data =>
    accessOk addr (vex.sizeofIRType (vex.typeOfIRExpr data)) && countable (vex.typeOfIRExpr data)
  | .dirty ⟨_, .None, mAddr, mSize, _⟩ => mAddr.isNone && mSize == 0
  | .dirty ⟨_, _, some mAddr, mSize, _⟩ => accessOk mAddr mSize
  | .dirty ⟨_, _, none, _, _⟩ => false
  | .cas ⟨_, _, some addr, _, _, dataHi, some dataLo⟩ =>
    let size := vex.sizeofIRType (vex.typeOfIRExpr dataLo)
    accessOk addr (if dataHi.isSome then size * 2 else size) && countable (vex.typeOfIRExpr dataLo)
  | .cas _ => false
  | .llsc result addr none =>
    accessOk addr (vex.sizeofIRType (vex.typeOfIRTemp result)) &&
    countable (vex.typeOfIRTemp result)
  | .llsc _ addr (some data) =>
    accessOk addr (vex.sizeofIRType (vex.typeOfIRExpr data)) && countable (vex.typeOfIRExpr data)
  | .exit _ _ => !opts.basicCounts || iaddr != 0
  | _ => true

/-! ### What one step does to the buffer -/

/-- From `sb` to `sb'` only calls were inserted; they trace what the buffer hands out when it
holds the items. -/
structure Held (nEvents : Nat) (sb : SbOut) (items : List (Item Event)) (sb' : SbOut)
    (calls : List HelperCall) : Prop where
  stmts : sb'.stmts = sb.stmts ++ calls.map .helper
  traced : calls.filterMap HelperCall.traced = (pushes Event.merge nEvents sb.events items).1
  events : sb'.events = (pushes Event.merge nEvents sb.events items).2
  iaddr : sb'.iaddr = sb.iaddr

/-- A step succeeds and holds the items. -/
def Holds (nEvents : Nat) (sb : SbOut) (items : List (Item Event)) (r : Except Fault SbOut) :
    Prop :=
  ∃ sb' calls, r = .ok sb' ∧ Held nEvents sb items sb' calls

variable {opts : Options} {vex : Vex} {nEvents : Nat}

theorem Held.refl (sb : SbOut) : Held nEvents sb [] sb [] :=
  ⟨(List.append_nil _).symm, rfl, rfl, rfl⟩

theorem Held.trans {sb sb₁ sb₂ : SbOut} {items items' : List (Item Event)}
    {calls calls' : List HelperCall} (h : Held nEvents sb items sb₁ calls)
    (h' : Held nEvents sb₁ items' sb₂ calls') :
    Held nEvents sb (items ++ items') sb₂ (calls ++ calls') where
  stmts := by rw [h'.stmts, h.stmts, List.map_append, List.append_assoc]
  traced := by rw [List.filterMap_append, h.traced, h'.traced, h.events, pushes_append]
  events := by rw [h'.events, h.events, pushes_append]
  iaddr := h'.iaddr.trans h.iaddr

/-- A counting call holds nothing. -/
theorem Held.addCall (sb : SbOut) {call : HelperCall} (hc : call.traced = none) :
    Held nEvents sb [] (sb.addCall call) [call] where
  stmts := rfl
  traced := by simp [hc, pushes]
  events := rfl
  iaddr := rfl

theorem Held.count (nEvents : Nat) (opts : Options) (sb : SbOut) {call : HelperCall}
    (hc : call.traced = none) :
    ∃ calls, Held nEvents sb [] (sb.count opts call) calls := by
  unfold SbOut.count
  split
  · exact ⟨_, .addCall sb hc⟩
  · exact ⟨_, .refl sb⟩

@[simp] private theorem traced_trace (events : List Event) :
    events.filterMap (fun ev ↦ (HelperCall.trace ev).traced) = events :=
  List.filterMap_some

/-- A flush is a barrier. -/
theorem Held.flush (sb : SbOut) :
    Held nEvents sb [.barrier] sb.flushEvents (sb.events.map .trace) where
  stmts := by simp [SbOut.flushEvents]
  traced := by simp [pushes, push]
  events := rfl
  iaddr := rfl

/-- Appending holds an event that does not merge into the newest one. -/
theorem appendEvent_spec (hn : 0 < nEvents) {sb : SbOut} (hb : sb.events.length ≤ nEvents)
    {e : Event} (he : (sb.events.getLast?.bind fun l ↦ l.merge e) = none) :
    Holds nEvents sb [.event e] (sb.appendEvent nEvents e) := by
  unfold SbOut.appendEvent
  by_cases hfull : sb.events.length = nEvents
  · simp only [if_pos hfull]
    refine ⟨_, sb.events.map .trace, if_pos hn, ?_⟩
    constructor <;> simp [SbOut.flushEvents, pushes, push, he, hfull]
  · simp only [if_neg hfull]
    refine ⟨_, [], if_pos (by omega), ?_⟩
    constructor <;> simp [pushes, push, he, hfull]

private theorem not_merge_of_kind {sb : SbOut} {e : Event} (he : e.ekind ≠ .Dw) :
    (sb.events.getLast?.bind fun l ↦ l.merge e) = none := by
  cases sb.events.getLast? with
  | none => rfl
  | some l => exact if_neg fun h ↦ he h.2.1

theorem addEventIr_spec (hn : 0 < nEvents) {sb : SbOut} (hb : sb.events.length ≤ nEvents)
    {isize : UInt32} (hsize : instrSizeOk vex isize = true) (iaddr : IRExpr) :
    Holds nEvents sb [.event ⟨.Ir, iaddr, isize.toNat⟩]
      (addEventIr vex nEvents sb iaddr isize) := by
  rw [addEventIr, if_pos hsize]
  exact appendEvent_spec hn hb (not_merge_of_kind fun h ↦ by cases h)

theorem addEventDr_spec (hn : 0 < nEvents) {sb : SbOut} (hb : sb.events.length ≤ nEvents)
    {daddr : IRExpr} {dsize : Int} (hok : accessOk daddr dsize = true) :
    Holds nEvents sb [.event ⟨.Dr, daddr, dsize⟩] (addEventDr nEvents sb daddr dsize) := by
  rw [addEventDr, if_pos hok]
  exact appendEvent_spec hn hb (not_merge_of_kind fun h ↦ by cases h)

theorem addEventDw_spec (hn : 0 < nEvents) {sb : SbOut} (hb : sb.events.length ≤ nEvents)
    {daddr : IRExpr} {dsize : Int} (hok : accessOk daddr dsize = true) :
    Holds nEvents sb [.event ⟨.Dw, daddr, dsize⟩] (addEventDw nEvents sb daddr dsize) := by
  rw [addEventDw, if_pos hok]
  cases hlast : sb.events.getLast? with
  | none => exact appendEvent_spec hn hb (by rw [hlast]; rfl)
  | some l =>
    by_cases hm : l.ekind = .Dr ∧ l.size = dsize ∧ l.addr.eqIRAtom daddr
    · have hmerge : l.merge ⟨.Dw, daddr, dsize⟩ = some { l with ekind := .Dm } :=
        if_pos ⟨hm.1, rfl, hm.2.1, hm.2.2⟩
      simp only [if_pos hm]
      refine ⟨_, [], rfl, (List.append_nil _).symm, ?_, ?_, rfl⟩
      · simp [pushes, push, hlast, hmerge]
      · simp [pushes, push, hlast, hmerge]
    · have hmerge : l.merge ⟨.Dw, daddr, dsize⟩ = none :=
        if_neg fun h ↦ hm ⟨h.1, h.2.2.1, h.2.2.2⟩
      simp only [if_neg hm]
      exact appendEvent_spec hn hb (by rw [hlast]; exact hmerge)

theorem instrumentDetail_spec (sb : SbOut) (op : Op) {type : IRType}
    (ht : countable type = true) : Holds nEvents sb [] (instrumentDetail sb op type) := by
  obtain ⟨ix, hix⟩ := Option.isSome_iff_exists.mp ht
  exact ⟨_, _, by rw [instrumentDetail, hix], .addCall sb rfl⟩

/-- The buffer never outgrows its array. -/
theorem Held.length_le (hn : 0 < nEvents) {sb sb' : SbOut} {items : List (Item Event)}
    {calls : List HelperCall} (h : Held nEvents sb items sb' calls)
    (hb : sb.events.length ≤ nEvents) : sb'.events.length ≤ nEvents := by
  rw [h.events]
  exact length_pushes hn hb items

/-! ### What one statement does -/

/-- The address that exits after the statement compare with. -/
def IRStmt.nextIaddr (opts : Options) (iaddr : UInt64) : IRStmt → UInt64
  | .iMark addr _ => if opts.basicCounts then addr else iaddr
  | _ => iaddr

/-- From `sb` to `sb'` the statement was copied between calls; those before it trace what the
buffer hands out when it holds the items, those after it trace nothing. -/
structure Instrumented (opts : Options) (nEvents : Nat) (sb : SbOut) (st : IRStmt)
    (items : List (Item Event)) (sb' : SbOut) (before after : List HelperCall) : Prop where
  stmts : sb'.stmts = sb.stmts ++ (before.map .helper ++ .copied st :: after.map .helper)
  traced : before.filterMap HelperCall.traced = (pushes Event.merge nEvents sb.events items).1
  silent : after.filterMap HelperCall.traced = []
  events : sb'.events = (pushes Event.merge nEvents sb.events items).2
  iaddr : sb'.iaddr = st.nextIaddr opts sb.iaddr

/-- Instrumenting the statement succeeds and holds the items before the copy. -/
def Traces (opts : Options) (nEvents : Nat) (sb : SbOut) (st : IRStmt)
    (items : List (Item Event)) (r : Except Fault SbOut) : Prop :=
  ∃ sb' before after, r = .ok sb' ∧ Instrumented opts nEvents sb st items sb' before after

/-- A statement copied between two groups of calls. -/
theorem Held.copied {sb sb₁ sb' : SbOut} {st : IRStmt} {items : List (Item Event)}
    {before after : List HelperCall} (h : Held nEvents sb items sb₁ before)
    (h' : Held nEvents (sb₁.addStmtToIRSB st) [] sb' after)
    (hst : st.nextIaddr opts sb.iaddr = sb.iaddr) :
    Instrumented opts nEvents sb st items sb' before after where
  stmts := by simp [h'.stmts, SbOut.addStmtToIRSB, h.stmts]
  traced := h.traced
  silent := h'.traced
  events := h'.events.trans h.events
  iaddr := h'.iaddr.trans (h.iaddr.trans hst.symm)

theorem Traces.copy {sb : SbOut} {st : IRStmt} (hst : st.nextIaddr opts sb.iaddr = sb.iaddr) :
    Traces opts nEvents sb st [] (.ok (sb.addStmtToIRSB st)) :=
  ⟨_, [], [], rfl, (Held.refl sb).copied (.refl _) hst⟩

/-- Calls that hold items come before the rest of a statement's instrumentation. -/
theorem Held.traces {sb sb₁ : SbOut} {items items' : List (Item Event)}
    {calls : List HelperCall} {st : IRStmt} {r : Except Fault SbOut}
    (h : Held nEvents sb items sb₁ calls) (ht : Traces opts nEvents sb₁ st items' r) :
    Traces opts nEvents sb st (items ++ items') r := by
  obtain ⟨sb', before, after, hr, hi⟩ := ht
  refine ⟨sb', calls ++ before, after, hr, ?_, ?_, hi.silent, ?_, ?_⟩
  · rw [hi.stmts, h.stmts, List.map_append, List.append_assoc, List.append_assoc]
  · rw [List.filterMap_append, h.traced, hi.traced, h.events, pushes_append]
  · rw [hi.events, h.events, pushes_append]
  · rw [hi.iaddr, h.iaddr]

/-- The same for a step that may fail. -/
theorem Holds.bind {sb : SbOut} {items items' : List (Item Event)} {r : Except Fault SbOut}
    {st : IRStmt} {k : SbOut → Except Fault SbOut} (h : Holds nEvents sb items r)
    (hn : 0 < nEvents) (hb : sb.events.length ≤ nEvents)
    (hk : ∀ sb' : SbOut, sb'.events.length ≤ nEvents → sb'.iaddr = sb.iaddr →
      Traces opts nEvents sb' st items' (k sb')) :
    Traces opts nEvents sb st (items ++ items') (r >>= k) := by
  obtain ⟨sb₁, calls, rfl, hheld⟩ := h
  exact hheld.traces (hk sb₁ (hheld.length_le hn hb) hheld.iaddr)

/-- A counted type is not VEX's marker. -/
private theorem ne_invalid {type : IRType} (ht : countable type = true) :
    type ≠ .INVALID := by
  rintro rfl
  cases ht

/-- A size within the bounds is not zero. -/
private theorem size_ne_zero {addr : IRExpr} {size : Int} (ha : accessOk addr size = true) :
    size ≠ 0 := by
  simp only [accessOk, Bool.and_eq_true, decide_eq_true_eq] at ha
  omega

section Cases

variable (hn : 0 < nEvents) {sb : SbOut} (hb : sb.events.length ≤ nEvents)

include hn hb

theorem instrumentIMark_spec {addr : UInt64} {len : UInt32}
    (ha : (IRStmt.iMark addr len).asserted opts vex sb.iaddr = true) :
    Traces opts nEvents sb (.iMark addr len) ((IRStmt.iMark addr len).items vex)
      (instrumentIMark opts vex nEvents sb addr len) := by
  have hrest (sb : SbOut) (hb : sb.events.length ≤ nEvents)
      (hst : (IRStmt.iMark addr len).nextIaddr opts sb.iaddr = sb.iaddr) :
      Traces opts nEvents sb (.iMark addr len) ((IRStmt.iMark addr len).items vex)
        (addEventIr vex nEvents sb (mkIRExprHWord addr) len >>= fun sb ↦
          .ok (sb.addStmtToIRSB (.iMark addr len))) := by
    apply (addEventIr_spec hn hb ha (mkIRExprHWord addr)).bind hn hb
    intro sb' _ hiaddr
    exact .copy (by rw [hiaddr, hst])
  cases hcounts : opts.basicCounts with
  | false =>
    simp only [instrumentIMark, hcounts]
    exact hrest sb hb (by simp [IRStmt.nextIaddr, hcounts])
  | true =>
    have hnext (iaddr : UInt64) : (IRStmt.iMark addr len).nextIaddr opts iaddr = addr := by
      simp [IRStmt.nextIaddr, hcounts]
    let marked : SbOut := { sb with iaddr := addr, ilen := len }
    have hguest : Held nEvents marked [] (marked.addCall .addOneGuestInstr) [.addOneGuestInstr] :=
      .addCall marked rfl
    have hmarked : Traces opts nEvents marked (.iMark addr len)
        ((IRStmt.iMark addr len).items vex) (instrumentIMark opts vex nEvents sb addr len) := by
      simp only [instrumentIMark, hcounts, if_neg opts.fnname_ne, ↓reduceIte]
      apply hguest.traces
      split
      · exact (Held.addCall _ rfl).traces (hrest _ hb (hnext _))
      · exact hrest _ hb (hnext _)
    obtain ⟨sb', before, after, hr, hi⟩ := hmarked
    exact ⟨sb', before, after, hr, hi.stmts, hi.traced, hi.silent, hi.events,
      hi.iaddr.trans ((hnext _).trans (hnext _).symm)⟩

theorem instrumentWrTmp_spec {tmp : IRTemp} {data : IRExpr}
    (ha : (IRStmt.wrTmp tmp data).asserted opts vex sb.iaddr = true) :
    Traces opts nEvents sb (.wrTmp tmp data) ((IRStmt.wrTmp tmp data).items vex)
      (instrumentWrTmp vex nEvents sb tmp data) := by
  simp only [IRStmt.asserted, Bool.and_eq_true, bne_iff_ne] at ha
  obtain ⟨⟨haccess, htype⟩, hcount⟩ := ha
  have hcopy (sb : SbOut) : Traces opts nEvents sb (.wrTmp tmp data) []
      (.ok (sb.addStmtToIRSB (.wrTmp tmp data))) := .copy rfl
  have hdetail (op : Op) (sb : SbOut) (hb : sb.events.length ≤ nEvents)
      (hop : data.countedOp = some op) :
      Traces opts nEvents sb (.wrTmp tmp data) []
        (instrumentDetail sb op (vex.typeOfIRExpr data) >>= fun sb ↦
          .ok (sb.addStmtToIRSB (.wrTmp tmp data))) := by
    rw [hop] at hcount
    exact (instrumentDetail_spec sb op hcount).bind hn hb fun sb _ _ ↦ hcopy sb
  simp only [instrumentWrTmp, if_neg htype]
  cases data with
  | load ty addr =>
    exact (addEventDr_spec hn hb haccess).bind hn hb fun sb hb _ ↦ hdetail .OpLoad sb hb rfl
  | rdTmp _ => exact hcopy sb
  | const _ => exact hcopy sb
  | other _ => exact hcopy sb
  | unop _ _ => exact hdetail .OpAlu sb hb rfl
  | binop _ _ _ => exact hdetail .OpAlu sb hb rfl
  | triop _ _ _ _ => exact hdetail .OpAlu sb hb rfl
  | qop _ _ _ _ _ => exact hdetail .OpAlu sb hb rfl
  | mux0X _ _ _ => exact hdetail .OpAlu sb hb rfl

theorem instrumentStore_spec {addr data : IRExpr}
    (ha : (IRStmt.store addr data).asserted opts vex sb.iaddr = true) :
    Traces opts nEvents sb (.store addr data) ((IRStmt.store addr data).items vex)
      (instrumentStore vex nEvents sb addr data) := by
  simp only [IRStmt.asserted, Bool.and_eq_true] at ha
  simp only [instrumentStore, if_neg (ne_invalid ha.2)]
  apply (addEventDw_spec hn hb ha.1).bind hn hb
  intro sb hb _
  apply (instrumentDetail_spec sb .OpStore ha.2).bind hn hb
  intro sb hb _
  exact .copy rfl

theorem instrumentDirty_spec {d : IRDirty}
    (ha : (IRStmt.dirty d).asserted opts vex sb.iaddr = true) :
    Traces opts nEvents sb (.dirty d) ((IRStmt.dirty d).items vex)
      (instrumentDirty nEvents sb d) := by
  obtain ⟨cee, mFx, mAddr, mSize, tmp⟩ := d
  cases mAddr with
  | none =>
    cases mFx with
    | None =>
      have hsize : mSize = 0 := by simpa [IRStmt.asserted] using ha
      simp only [instrumentDirty, hsize]
      exact .copy rfl
    | Read => cases ha
    | Write => cases ha
    | Modify => cases ha
  | some addr =>
    cases mFx with
    | None => cases ha
    | Read =>
      simp only [instrumentDirty, if_neg (size_ne_zero ha), reduceCtorEq, or_false, if_true,
        if_false]
      apply (addEventDr_spec hn hb ha).bind hn hb
      intro sb hb _
      exact .copy rfl
    | Write =>
      simp only [instrumentDirty, if_neg (size_ne_zero ha), reduceCtorEq, or_false, if_true,
        if_false]
      apply (addEventDw_spec hn hb ha).bind hn hb
      intro sb hb _
      exact .copy rfl
    | Modify =>
      simp only [instrumentDirty, if_neg (size_ne_zero ha), reduceCtorEq, or_true, if_true]
      apply (addEventDr_spec hn hb ha).bind hn hb
      intro sb hb _
      apply (addEventDw_spec hn hb ha).bind hn hb
      intro sb hb _
      exact .copy rfl

theorem instrumentCAS_spec {cas : IRCAS}
    (ha : (IRStmt.cas cas).asserted opts vex sb.iaddr = true) :
    Traces opts nEvents sb (.cas cas) ((IRStmt.cas cas).items vex)
      (instrumentCAS vex nEvents sb cas) := by
  obtain ⟨oldHi, oldLo, addr, expdHi, expdLo, dataHi, dataLo⟩ := cas
  cases addr with
  | none => cases ha
  | some addr =>
    cases dataLo with
    | none => cases ha
    | some dataLo =>
      simp only [IRStmt.asserted, Bool.and_eq_true] at ha
      have hdetail (op : Op) (sb : SbOut) : Holds nEvents sb [] (instrumentDetail sb op _) :=
        instrumentDetail_spec sb op ha.2
      simp only [instrumentCAS]
      cases dataHi with
      | none =>
        simp only [Option.isSome_none, Bool.false_eq_true, if_false] at ha ⊢
        apply (addEventDr_spec hn hb ha.1).bind hn hb
        intro sb hb _
        apply (addEventDw_spec hn hb ha.1).bind hn hb
        intro sb hb _
        apply (hdetail .OpLoad sb).bind hn hb
        intro sb hb _
        apply (hdetail .OpStore sb).bind hn hb
        intro sb hb _
        exact .copy rfl
      | some dataHi =>
        simp only [Option.isSome_some, if_true] at ha ⊢
        apply (addEventDr_spec hn hb ha.1).bind hn hb
        intro sb hb _
        apply (addEventDw_spec hn hb ha.1).bind hn hb
        intro sb hb _
        apply (hdetail .OpLoad sb).bind hn hb
        intro sb hb _
        apply (hdetail .OpLoad sb).bind hn hb
        intro sb hb _
        apply (hdetail .OpStore sb).bind hn hb
        intro sb hb _
        apply (hdetail .OpStore sb).bind hn hb
        intro sb hb _
        exact .copy rfl

theorem instrumentLLSC_spec {result : IRTemp} {addr : IRExpr} {storedata : Option IRExpr}
    (ha : (IRStmt.llsc result addr storedata).asserted opts vex sb.iaddr = true) :
    Traces opts nEvents sb (.llsc result addr storedata)
      ((IRStmt.llsc result addr storedata).items vex)
      (instrumentLLSC vex nEvents sb result addr storedata) := by
  cases storedata with
  | none =>
    simp only [IRStmt.asserted, Bool.and_eq_true] at ha
    apply (addEventDr_spec hn hb ha.1).bind hn hb
    intro sb hb _
    apply (Held.flush sb).traces
    apply (instrumentDetail_spec sb.flushEvents .OpLoad ha.2).bind hn (Nat.zero_le _)
    intro sb hb _
    exact .copy rfl
  | some data =>
    simp only [IRStmt.asserted, Bool.and_eq_true] at ha
    apply (addEventDw_spec hn hb ha.1).bind hn hb
    intro sb hb _
    apply (instrumentDetail_spec sb .OpStore ha.2).bind hn hb
    intro sb hb _
    exact .copy rfl

omit hn hb in
theorem instrumentExit_spec {guard : IRExpr} {dst : IRConst}
    (ha : (IRStmt.exit guard dst).asserted opts vex sb.iaddr = true) :
    Traces opts nEvents sb (.exit guard dst) ((IRStmt.exit guard dst).items vex)
      (instrumentExit opts sb guard dst) := by
  have hiaddr : ¬(opts.basicCounts = true ∧ sb.iaddr = 0) := by
    rintro ⟨hcounts, hzero⟩
    simp [IRStmt.asserted, hcounts, hzero] at ha
  simp only [instrumentExit, if_neg hiaddr]
  have hsilent (p : Prop) [Decidable p] (call call' : HelperCall) (hc : call.traced = none)
      (hc' : call'.traced = none) : (if p then call else call').traced = none := by
    split <;> assumption
  obtain ⟨calls, hcount⟩ := Held.count nEvents opts sb
    (hsilent (dst.value = sb.iaddr + sb.ilen.toUInt64) .addOneInvertedJcc .addOneJcc rfl rfl)
  obtain ⟨after, hafter⟩ := Held.count nEvents opts
    ((sb.count opts _).flushEvents.addStmtToIRSB (.exit guard dst))
    (hsilent (dst.value = sb.iaddr + sb.ilen.toUInt64) .addOneInvertedJccUntaken
      .addOneJccUntaken rfl rfl)
  exact ⟨_, _, after, rfl, (hcount.trans (.flush _)).copied hafter rfl⟩

/-- Each case of the switch succeeds and holds the events of its statement. -/
theorem instrumentStmt_spec (st : IRStmt) (ha : st.asserted opts vex sb.iaddr = true) :
    Traces opts nEvents sb st (st.items vex) (instrumentStmt opts vex nEvents sb st) := by
  cases st with
  | iMark addr len => exact instrumentIMark_spec hn hb ha
  | wrTmp tmp data => exact instrumentWrTmp_spec hn hb ha
  | store addr data => exact instrumentStore_spec hn hb ha
  | dirty d => exact instrumentDirty_spec hn hb ha
  | cas details => exact instrumentCAS_spec hn hb ha
  | llsc result addr storedata => exact instrumentLLSC_spec hn hb ha
  | exit guard dst => exact instrumentExit_spec ha
  | noOp => exact .copy rfl
  | abiHint base len => exact .copy rfl
  | put offset data => exact .copy rfl
  | putI ix bias data => exact .copy rfl
  | mbe event => exact .copy rfl

end Cases

/-! ### Executions -/

/-- Temporaries that a statement assigns. -/
def IRStmt.defs : IRStmt → List IRTemp
  | .wrTmp tmp _ => [tmp]
  | .cas details => details.oldLo :: details.oldHi.toList
  | .llsc result _ _ => [result]
  | .dirty d => d.tmp.toList
  | _ => []

/-- An address that never changes once the temporaries are assigned. -/
def IRExpr.assignedIn (assigned : List IRTemp) : IRExpr → Bool
  | .rdTmp tmp => tmp ∈ assigned
  | .const _ => true
  | _ => false

/-- Static single assignment, as far as traced addresses need it: a statement reads its address
from an assigned temporary and assigns only new ones. -/
def Ssa (vex : Vex) : List IRTemp → List IRStmt → Prop
  | _, [] => True
  | assigned, st :: stmts =>
    (∀ e, .event e ∈ st.items vex → e.addr.assignedIn assigned = true) ∧
    (∀ tmp ∈ st.defs, tmp ∉ assigned) ∧ Ssa vex (st.defs ++ assigned) stmts

/-- How the original statements act on the guest: any machine whose atoms change only when their
temporary is assigned, and for which a no-op does nothing. -/
structure Guest (σ : Type) where
  exec : IRStmt → σ → σ
  taken : IRExpr → σ → Bool
  atom : σ → IRExpr → UInt64
  frame : ∀ (st : IRStmt) (s : σ) (a : IRExpr), a.isIRAtom = true →
    (∀ tmp ∈ st.defs, a ≠ .rdTmp tmp) → atom (exec st s) a = atom s a
  noOp : ∀ s, exec .noOp s = s

/-- The arguments of a traced event's call: address and size as words. -/
def called (e : Event × UInt64) : TraceEvent := ⟨e.1.ekind, e.2, .ofInt e.1.size⟩

namespace Guest

variable {σ : Type} (g : Guest σ)

/-- Whether the statement leaves the superblock. -/
def leaves : IRStmt → σ → Bool
  | .exit guard _, s => g.taken guard s
  | _, _ => false

/-- An event and the value of its address. -/
def value (s : σ) (e : Event) : Event × UInt64 := (e, g.atom s e.addr)

/-- The trace helpers called when the instrumented superblock runs from `s`. -/
def trace : List OutStmt → σ → List TraceEvent
  | [], _ => []
  | .helper call :: out, s =>
    (call.traced.map fun ev ↦ called (g.value s ev)).toList ++ trace out s
  | .copied st :: out, s => if g.leaves st s then [] else trace out (g.exec st s)

/-- The events of the original statements that run from `s`. -/
def items (vex : Vex) : List IRStmt → σ → List (Item (Event × UInt64))
  | [], _ => []
  | st :: stmts, s =>
    (st.items vex).map (Item.map (g.value s)) ++
      if g.leaves st s then [] else items vex stmts (g.exec st s)

/-- The same, from the first `IMark` on. -/
def reference (vex : Vex) : List IRStmt → σ → List (Item (Event × UInt64))
  | [], _ => []
  | st :: stmts, s =>
    if st.isIMark then g.items vex (st :: stmts) s
    else if g.leaves st s then [] else reference vex stmts (g.exec st s)

/-- Calls between statements run in the state of the statement before them. -/
theorem trace_helpers (calls : List HelperCall) (out : List OutStmt) (s : σ) :
    g.trace (calls.map .helper ++ out) s =
      (calls.filterMap HelperCall.traced).map (fun ev ↦ called (g.value s ev)) ++
        g.trace out s := by
  induction calls with
  | nil => rfl
  | cons call calls ih =>
    rw [List.map_cons, List.cons_append, trace, ih, List.filterMap_cons]
    cases call.traced with
    | none => rfl
    | some ev => rfl

/-- A held event keeps its value while statements assign other temporaries. -/
theorem value_exec {assigned : List IRTemp} {st : IRStmt}
    (hst : ∀ tmp ∈ st.defs, tmp ∉ assigned) {e : Event}
    (he : e.addr.assignedIn assigned = true) (s : σ) :
    g.value (g.exec st s) e = g.value s e := by
  have hatom : e.addr.isIRAtom = true := by
    cases haddr : e.addr <;> rw [haddr] at he <;> first | rfl | cases he
  have hframe := g.frame st s e.addr hatom fun tmp htmp haddr ↦ by
    rw [haddr, IRExpr.assignedIn, decide_eq_true_eq] at he
    exact hst tmp htmp he
  rw [value, hframe]
  rfl

end Guest

theorem Event.merge_eq_some {e f g : Event} (h : e.merge f = some g) :
    e.ekind = .Dr ∧ f.ekind = .Dw ∧ g = { e with ekind := .Dm } := by
  obtain ⟨⟨he, hf, -⟩, hg⟩ := Option.ite_none_right_eq_some.mp h
  exact ⟨he, hf, (Option.some.inj hg).symm⟩

/-- A modify is neither a read nor a write: merged events merge no further. -/
theorem merging_merge : Merging Event.merge where
  final := by
    intro e f g h i
    obtain ⟨-, -, rfl⟩ := Event.merge_eq_some h
    exact if_neg fun hi ↦ by cases hi.1
  fresh := by
    intro e f g h i
    obtain ⟨-, -, rfl⟩ := Event.merge_eq_some h
    exact if_neg fun hi ↦ by cases hi.2.1

private theorem merge_value {σ : Type} (g : Guest σ) (s : σ) (e f : Event) :
    labelled Event.merge (g.value s e) (g.value s f) = (e.merge f).map (g.value s) := by
  change (e.merge f).map (fun m ↦ (m, g.atom s e.addr)) = _
  cases hm : e.merge f with
  | none => rfl
  | some m =>
    obtain ⟨-, -, rfl⟩ := Event.merge_eq_some hm
    rfl

/-! ### The simulation -/

/-- Every statement from the first `IMark` on meets what the instrumentation asserts of it. -/
def Asserted (opts : Options) (vex : Vex) : UInt64 → List IRStmt → Prop
  | _, [] => True
  | iaddr, st :: stmts =>
    st.asserted opts vex iaddr = true ∧ Asserted opts vex (st.nextIaddr opts iaddr) stmts

/-- What precedes the first `IMark`. -/
def preamble (sbIn : List (Option IRStmt)) : List (Option IRStmt) :=
  sbIn.takeWhile fun st ↦ !st.any IRStmt.isIMark

/-- The superblock from the first `IMark` on. -/
def body (sbIn : List (Option IRStmt)) : List (Option IRStmt) :=
  sbIn.dropWhile fun st ↦ !st.any IRStmt.isIMark

/-- A superblock in static single assignment, with the assertions met and no null statement
before the first `IMark`. -/
structure WellFormed (opts : Options) (vex : Vex) (sbIn : List (Option IRStmt)) : Prop where
  ssa : Ssa vex [] sbIn.reduceOption
  asserted : Asserted opts vex 0 (body sbIn).reduceOption
  preamble : none ∉ preamble sbIn

/-- The buffer holds settled events whose addresses no longer change. -/
structure Holding (nEvents : Nat) (assigned : List IRTemp) (events : List Event) : Prop where
  length_le : events.length ≤ nEvents
  settled : Settled Event.merge events
  assignedIn : ∀ e ∈ events, e.addr.assignedIn assigned = true

theorem Holding.pushes (hn : 0 < nEvents) {assigned : List IRTemp} {events : List Event}
    (h : Holding nEvents assigned events) {items : List (Item Event)}
    (hi : ∀ e, .event e ∈ items → e.addr.assignedIn assigned = true) :
    Holding nEvents assigned (pushes Event.merge nEvents events items).2 where
  length_le := length_pushes hn h.length_le items
  settled := (pushes_spec merging_merge _ h.settled items).1
  assignedIn := by
    apply pushes_forall ?_ h.assignedIn hi
    intro e f g hg he
    obtain ⟨-, -, rfl⟩ := Event.merge_eq_some hg
    exact he

/-- Assigning further temporaries. -/
theorem Holding.mono {assigned defs : List IRTemp} {events : List Event}
    (h : Holding nEvents assigned events) : Holding nEvents (defs ++ assigned) events where
  length_le := h.length_le
  settled := h.settled
  assignedIn := by
    intro e he
    have hassigned := h.assignedIn e he
    cases haddr : e.addr <;> rw [haddr] at hassigned <;>
      simp_all [IRExpr.assignedIn]

private theorem erase_helpers (calls : List HelperCall) :
    calls.filterMap (OutStmt.original ∘ .helper) = [] :=
  List.filterMap_eq_nil_iff.mpr fun _ _ ↦ rfl

/-- A step of the loop counts the statement and instruments it. -/
theorem instrumentStmts_some {sb : SbOut} {st : IRStmt} (hst : st ≠ .noOp)
    (stmts : List (Option IRStmt)) :
    instrumentStmts opts vex nEvents sb (some st :: stmts) =
      instrumentStmt opts vex nEvents (sb.count opts .addOneIRStmt) st >>= fun sb ↦
        instrumentStmts opts vex nEvents sb stmts := by
  cases st <;> first | rfl | exact absurd rfl hst

/-- A statement that leaves is an exit, whose barrier empties the buffer. -/
private theorem leaves_pushes {σ : Type} {g : Guest σ} {st : IRStmt} {s : σ}
    (h : g.leaves st s = true) (events : List Event) :
    (pushes Event.merge nEvents events (st.items vex)).2 = [] := by
  cases st <;> first | rfl | cases h

/-- What one instrumented statement traces, given what the rest traces after it. -/
theorem Instrumented.trace {σ : Type} (g : Guest σ) {sb sb' : SbOut} {st : IRStmt}
    {before after : List HelperCall} {assigned : List IRTemp}
    (h : Instrumented opts nEvents sb st (st.items vex) sb' before after)
    (hn : 0 < nEvents) (hh : Holding nEvents assigned sb.events)
    (hst : ∀ e, .event e ∈ st.items vex → e.addr.assignedIn assigned = true)
    (hdefs : ∀ tmp ∈ st.defs, tmp ∉ assigned) (s : σ) {out : List OutStmt}
    {rest : List (Item (Event × UInt64))}
    (hrest : g.trace out (g.exec st s) =
      (coalesce (labelled Event.merge)
        ((sb'.events.map (g.value (g.exec st s))).map .event ++ rest)).map called) :
    g.trace (before.map .helper ++ .copied st :: (after.map .helper ++ out)) s =
      (coalesce (labelled Event.merge) ((sb.events.map (g.value s)).map .event ++
        ((st.items vex).map (Item.map (g.value s)) ++
          if g.leaves st s then [] else rest))).map called := by
  have hspec := (pushes_spec merging_merge.labelled nEvents
    (hh.settled.map (merge_value g s)) ((st.items vex).map (Item.map (g.value s)))).2
  rw [pushes_map (merge_value g s)] at hspec
  rw [g.trace_helpers, h.traced, hspec, List.map_append, List.map_map, Guest.trace]
  congr 1
  cases hleaves : g.leaves st s with
  | true =>
    rw [leaves_pushes hleaves]
    rfl
  | false =>
    have hkept : (pushes Event.merge nEvents sb.events (st.items vex)).2.map (g.value s) =
        sb'.events.map (g.value (g.exec st s)) := by
      rw [h.events]
      apply List.map_congr_left
      intro e he
      exact (g.value_exec hdefs ((hh.pushes hn hst).assignedIn e he) s).symm
    simp only [Bool.false_eq_true, if_false]
    rw [g.trace_helpers, h.silent, hkept]
    exact hrest

/-- Instrumenting the statements after `sb` succeeds with `tail` added; `tail` copies them, and
run before the calls for the events still held it traces the reference. -/
theorem instrumentStmts_spec (hn : 0 < nEvents) {stmts : List (Option IRStmt)} {sb : SbOut}
    {assigned : List IRTemp} (hh : Holding nEvents assigned sb.events)
    (hssa : Ssa vex assigned stmts.reduceOption)
    (ha : Asserted opts vex sb.iaddr stmts.reduceOption) :
    ∃ sb' tail, instrumentStmts opts vex nEvents sb stmts = .ok sb' ∧
      sb'.stmts = sb.stmts ++ tail ∧
      tail.filterMap OutStmt.original = stmts.reduceOption.filter (· ≠ .noOp) ∧
      ∀ {σ : Type} (g : Guest σ) (s : σ) (final : List HelperCall),
        final.filterMap HelperCall.traced = sb'.events →
        g.trace (tail ++ final.map .helper) s =
          (coalesce (labelled Event.merge)
            ((sb.events.map (g.value s)).map .event ++
              g.items vex stmts.reduceOption s)).map called := by
  induction stmts generalizing sb assigned with
  | nil =>
    refine ⟨sb, [], rfl, (List.append_nil _).symm, rfl, ?_⟩
    intro σ g s final hfinal
    have hout := g.trace_helpers final [] s
    have hsettled : coalesce (labelled Event.merge) ((sb.events.map (g.value s)).map .event ++ []) =
        sb.events.map (g.value s) ++ coalesce (labelled Event.merge) [] :=
      coalesce_settled (hh.settled.map (merge_value g s)) fun l _ f ys hf ↦ by cases hf
    rw [List.append_nil] at hout
    rw [List.nil_append, hout, hfinal]
    change _ = (coalesce _ (_ ++ [])).map called
    rw [hsettled]
    simp [Guest.trace, coalesce]
  | cons st stmts ih =>
    cases st with
    | none => exact ih hh hssa ha
    | some st =>
      rw [List.reduceOption_cons_of_some] at hssa ha ⊢
      obtain ⟨haddr, hdefs, hssa⟩ := hssa
      obtain ⟨hast, ha⟩ := ha
      by_cases hst : st = .noOp
      · subst hst
        obtain ⟨sb', tail, hr, hstmts, herase, htrace⟩ := ih hh hssa ha
        refine ⟨sb', tail, hr, hstmts, herase, ?_⟩
        intro σ g s final hfinal
        rw [htrace g s final hfinal]
        simp [Guest.items, IRStmt.items, Guest.leaves, g.noOp]
      · obtain ⟨calls, hcount⟩ :=
          Held.count nEvents opts sb (rfl : HelperCall.addOneIRStmt.traced = none)
        have hlen := hcount.length_le hn hh.length_le
        rw [← hcount.iaddr] at hast
        obtain ⟨sb₁, before, after, hr₁, hi⟩ :=
          hcount.traces (instrumentStmt_spec hn hlen st hast)
        have hh₁ : Holding nEvents (st.defs ++ assigned) sb₁.events := by
          rw [hi.events]
          exact (hh.pushes hn haddr).mono
        rw [← hi.iaddr] at ha
        obtain ⟨sb', tail, hr, hstmts, herase, htrace⟩ := ih hh₁ hssa ha
        refine ⟨sb', before.map .helper ++ .copied st :: (after.map .helper ++ tail), ?_, ?_, ?_,
          ?_⟩
        · rw [instrumentStmts_some hst, hr₁]
          exact hr
        · rw [hstmts, hi.stmts]
          simp only [List.append_assoc, List.cons_append]
        · simp [erase_helpers, herase, OutStmt.original, hst]
        · intro σ g s final hfinal
          have hrest := hi.trace g hn hh haddr hdefs s (htrace g (g.exec st s) final hfinal)
          rw [Guest.items, ← hrest]
          simp only [List.append_assoc, List.cons_append]

@[simp] theorem preamble_cons (st : Option IRStmt) (sbIn : List (Option IRStmt)) :
    preamble (st :: sbIn) =
      if st.any IRStmt.isIMark then [] else st :: preamble sbIn := by
  unfold preamble
  rw [List.takeWhile_cons]
  cases st.any IRStmt.isIMark <;> rfl

@[simp] theorem body_cons (st : Option IRStmt) (sbIn : List (Option IRStmt)) :
    body (st :: sbIn) = if st.any IRStmt.isIMark then st :: sbIn else body sbIn := by
  unfold body
  rw [List.dropWhile_cons]
  cases st.any IRStmt.isIMark <;> rfl

/-- The preamble is copied as it is, and the loop goes on at the first `IMark`. -/
theorem copyPreamble_spec {sbIn : List (Option IRStmt)} (h : none ∉ preamble sbIn) (sb : SbOut) :
    copyPreamble sb sbIn =
      .ok ({ sb with stmts := sb.stmts ++ (preamble sbIn).reduceOption.map .copied },
        body sbIn) := by
  induction sbIn generalizing sb with
  | nil => simp [copyPreamble, preamble, body]
  | cons st sbIn ih =>
    cases st with
    | none => simp at h
    | some st =>
      cases hmark : st.isIMark with
      | true => simp [copyPreamble, hmark]
      | false =>
        simp only [preamble_cons, Option.any_some, hmark, Bool.false_eq_true, if_false,
          List.mem_cons, reduceCtorEq, false_or] at h
        simp [copyPreamble, hmark, ih h, SbOut.addStmtToIRSB, List.reduceOption_cons_of_some]

/-- Statements before the first `IMark` only assign. -/
theorem ssa_body {sbIn : List (Option IRStmt)} {assigned : List IRTemp}
    (h : Ssa vex assigned sbIn.reduceOption) :
    ∃ assigned', Ssa vex assigned' (body sbIn).reduceOption := by
  induction sbIn generalizing assigned with
  | nil => exact ⟨assigned, h⟩
  | cons st sbIn ih =>
    cases st with
    | none => exact ih h
    | some st =>
      cases hmark : st.isIMark with
      | true => exact ⟨assigned, by simpa [hmark] using h⟩
      | false =>
        rw [List.reduceOption_cons_of_some] at h
        simpa [hmark] using ih h.2.2

/-- Running the preamble first is running the reference up to the first `IMark`. -/
theorem trace_preamble {σ : Type} (g : Guest σ) {sbIn : List (Option IRStmt)}
    {out : List OutStmt}
    (h : ∀ s, g.trace out s =
      (coalesce (labelled Event.merge) (g.items vex (body sbIn).reduceOption s)).map called)
    (s : σ) :
    g.trace ((preamble sbIn).reduceOption.map .copied ++ out) s =
      (coalesce (labelled Event.merge) (g.reference vex sbIn.reduceOption s)).map called := by
  induction sbIn generalizing s with
  | nil => exact h s
  | cons st sbIn ih =>
    cases st with
    | none => exact ih h s
    | some st =>
      cases hmark : st.isIMark with
      | true =>
        have hbody := h s
        simp only [body_cons, Option.any_some, hmark, if_true] at hbody
        simpa [hmark, List.reduceOption_cons_of_some, Guest.reference] using hbody
      | false =>
        have hrest := ih (by simpa [hmark] using h) (g.exec st s)
        simp only [preamble_cons, Option.any_some, hmark, Bool.false_eq_true, if_false,
          List.reduceOption_cons_of_some, List.map_cons, List.cons_append, Guest.trace,
          Guest.reference]
        cases g.leaves st s with
        | true => rfl
        | false => exact hrest

/-- The calls before the first `IMark` hold nothing. -/
theorem Held.entered (nEvents : Nat) (opts : Options) (base : UInt64) (sb : SbOut) :
    ∃ calls, Held nEvents sb []
      ((sb.count opts .addOneSBEntered).addCall (.traceSuperblock base)) calls := by
  obtain ⟨calls, hentered⟩ :=
    Held.count nEvents opts sb (rfl : HelperCall.addOneSBEntered.traced = none)
  exact ⟨_, hentered.trans (.addCall (sb.count opts .addOneSBEntered) rfl)⟩

/-- The end of the superblock empties the buffer. -/
theorem Held.completed (nEvents : Nat) (opts : Options) (sb : SbOut) :
    ∃ calls, Held nEvents sb [.barrier] (sb.count opts .addOneSBCompleted).flushEvents calls := by
  obtain ⟨calls, hcompleted⟩ :=
    Held.count nEvents opts sb (rfl : HelperCall.addOneSBCompleted.traced = none)
  exact ⟨_, hcompleted.trans (.flush _)⟩

/-- Whatever the capacity, the instrumented superblock traces each event of the statements it
runs from the first `IMark` on exactly once and in order, a read right before a write of the same
place as one modify; without the inserted calls it is the preamble followed by the rest without
nulls and no-ops. -/
theorem mdInstrument_traces (opts : Options) (vex : Vex) (hn : 1 ≤ nEvents) (base : UInt64)
    {sbIn : List (Option IRStmt)} (h : WellFormed opts vex sbIn) :
    ∃ out, mdInstrument opts vex nEvents base sbIn = .ok out ∧
      (∀ {σ : Type} (g : Guest σ) (s : σ),
        g.trace out s =
          (coalesce (labelled Event.merge)
            (g.reference vex sbIn.reduceOption s)).map called) ∧
      out.filterMap OutStmt.original =
        (preamble sbIn).reduceOption ++ (body sbIn).reduceOption.filter (· ≠ .noOp) := by
  obtain ⟨assigned, hssa⟩ := ssa_body h.ssa
  let pre : List OutStmt := (preamble sbIn).reduceOption.map .copied
  let sb : SbOut := ⟨pre, [], 0, 0⟩
  obtain ⟨calls, hheld⟩ := Held.entered nEvents opts base sb
  generalize hstart : (sb.count opts .addOneSBEntered).addCall (.traceSuperblock base) = start
    at hheld
  have hevents : start.events = [] := hheld.events
  have hholding : Holding nEvents assigned start.events := by
    rw [hevents]
    exact ⟨Nat.zero_le _, .nil, fun e he ↦ absurd he List.not_mem_nil⟩
  have hasserted : Asserted opts vex start.iaddr (body sbIn).reduceOption := by
    rw [hheld.iaddr]
    exact h.asserted
  obtain ⟨sb', tail, hr, hstmts, herase, htrace⟩ :=
    instrumentStmts_spec hn hholding hssa hasserted
  obtain ⟨final, hfinal⟩ := Held.completed nEvents opts sb'
  generalize hlast : (sb'.count opts .addOneSBCompleted).flushEvents = last at hfinal
  refine ⟨last.stmts, ?_, ?_, ?_⟩
  · have hempty : { start with events := [] } = start := by rw [← hevents]
    simp only [mdInstrument, copyPreamble_spec h.preamble, List.nil_append]
    change (do
      let sb ← instrumentStmts opts vex nEvents
        { (sb.count opts .addOneSBEntered).addCall (.traceSuperblock base) with events := [] }
        (body sbIn)
      pure (sb.count opts .addOneSBCompleted).flushEvents.stmts) = _
    rw [hstart, hempty, hr, ← hlast]
    rfl
  · intro σ g s
    rw [hfinal.stmts, hstmts, hheld.stmts, List.append_assoc, List.append_assoc]
    apply trace_preamble
    intro s
    have htraced := hfinal.traced
    simp only [pushes, push, List.append_nil] at htraced
    have htail := htrace g s _ htraced
    rw [g.trace_helpers, hheld.traced, htail, hevents]
    rfl
  · rw [hfinal.stmts, hstmts, hheld.stmts]
    have hcopied : (preamble sbIn).reduceOption.filterMap (OutStmt.original ∘ .copied) =
        (preamble sbIn).reduceOption := List.filterMap_some
    simp only [sb, pre, List.filterMap_append, List.filterMap_map, herase, erase_helpers, hcopied,
      List.append_nil]

section Example

private def amd64 : Vex where
  sizeofIRType
    | .I32 => 4
    | _ => 8
  typeOfIRExpr
    | .const con => con.ty
    | .load ty _ => ty
    | _ => .I64
  typeOfIRTemp _ := .I64
  fnnameIfEntry _ := none
  minInstrSzB := 1
  maxInstrSzB := 16
  clreqSzB := 19

private def counting : Options := ⟨true, "main", by decide⟩

/-- `incq` of the word whose address a register holds, behind a guarded exit. -/
private def increment : List (Option IRStmt) :=
  [some (.abiHint (.other 0) 128), some (.iMark 0x1000 3), some (.wrTmp 0 (.other 1)),
    some (.wrTmp 1 (.load .I64 (.rdTmp 0))), none,
    some (.wrTmp 2 (.binop 1 (.rdTmp 1) (.const ⟨.I64, 1⟩))), some .noOp,
    some (.store (.rdTmp 0) (.rdTmp 2)), some (.exit (.rdTmp 2) ⟨.I64, 0x1003⟩)]

private theorem increment_wellFormed : WellFormed counting amd64 increment where
  ssa := by
    simp [increment, List.reduceOption, Ssa, IRStmt.items, IRStmt.defs, IRExpr.assignedIn,
      mkIRExprHWord]
  asserted := ⟨rfl, rfl, rfl, rfl, rfl, rfl, rfl, trivial⟩
  preamble := by decide

theorem mdInstrument_traces_increment :
    ∃ out, mdInstrument counting amd64 1 0x1000 increment = .ok out ∧
      (∀ {σ : Type} (g : Guest σ) (s : σ),
        g.trace out s =
          (coalesce (labelled Event.merge)
            (g.reference amd64 increment.reduceOption s)).map called) ∧
      out.filterMap OutStmt.original =
        (preamble increment).reduceOption ++
          (body increment).reduceOption.filter (· ≠ .noOp) :=
  mdInstrument_traces counting amd64 (Nat.le_refl 1) 0x1000 increment_wellFormed

/-- A no-op, then a load-linked whose place is stored to. -/
private def linked : List (Option IRStmt) :=
  [some .noOp, some (.iMark 0x1000 4), some (.llsc 0 (.const ⟨.I64, 64⟩) none),
    some (.store (.const ⟨.I64, 64⟩) (.rdTmp 0))]

private theorem linked_wellFormed : WellFormed counting amd64 linked where
  ssa := by
    simp [linked, List.reduceOption, Ssa, IRStmt.items, IRStmt.defs, IRExpr.assignedIn,
      mkIRExprHWord]
  asserted := ⟨rfl, rfl, rfl, trivial⟩
  preamble := by decide

/-- The no-op before the first `IMark` stays, and the load-linked's own read is not merged with
the write right after it. -/
theorem linked_kept_and_not_merged : WellFormed counting amd64 linked ∧
    ∃ out, mdInstrument counting amd64 4 0x1000 linked = .ok out ∧
      out.filterMap OutStmt.original ≠ linked.reduceOption.filter (· ≠ .noOp) ∧
      ∀ {σ : Type} (g : Guest σ) (s : σ), (g.trace out s).map (·.kind) = [.Ir, .Dr, .Dw] :=
  ⟨linked_wellFormed, _, rfl, by decide, fun _ _ ↦ rfl⟩

end Example

end Mema.Memadump
