import Mema.Memadump.Simulation

/-!
# The counters of `--basic-counts`

`memagrind/memadump/md_main.c:397–451,840–928,1053–1143`: each helper bumps one 64-bit counter.
Which helpers an execution calls is compared with the branches its original statements execute.
-/

namespace Mema.Memadump

/-- The counters, `md_main.c:398–406`. -/
structure Counters where
  nFuncCalls : UInt64
  nSBsEntered : UInt64
  nSBsCompleted : UInt64
  nIRStmts : UInt64
  nGuestInstrs : UInt64
  nJccs : UInt64
  nJccsUntaken : UInt64
  nIJccs : UInt64
  nIJccsUntaken : UInt64
  deriving DecidableEq, Repr

namespace Counters

/-- The counters start at zero. -/
def zero : Counters := ⟨0, 0, 0, 0, 0, 0, 0, 0, 0⟩

/-- `add_one_func_call`. -/
def addOneFuncCall (n : Counters) : Counters := { n with nFuncCalls := n.nFuncCalls + 1 }

/-- `add_one_SB_entered`. -/
def addOneSBEntered (n : Counters) : Counters := { n with nSBsEntered := n.nSBsEntered + 1 }

/-- `add_one_SB_completed`. -/
def addOneSBCompleted (n : Counters) : Counters := { n with nSBsCompleted := n.nSBsCompleted + 1 }

/-- `add_one_IRStmt`. -/
def addOneIRStmt (n : Counters) : Counters := { n with nIRStmts := n.nIRStmts + 1 }

/-- `add_one_guest_instr`. -/
def addOneGuestInstr (n : Counters) : Counters := { n with nGuestInstrs := n.nGuestInstrs + 1 }

/-- `add_one_Jcc`. -/
def addOneJcc (n : Counters) : Counters := { n with nJccs := n.nJccs + 1 }

/-- `add_one_Jcc_untaken`. -/
def addOneJccUntaken (n : Counters) : Counters := { n with nJccsUntaken := n.nJccsUntaken + 1 }

/-- `add_one_inverted_Jcc`. -/
def addOneInvertedJcc (n : Counters) : Counters := { n with nIJccs := n.nIJccs + 1 }

/-- `add_one_inverted_Jcc_untaken`. -/
def addOneInvertedJccUntaken (n : Counters) : Counters :=
  { n with nIJccsUntaken := n.nIJccsUntaken + 1 }

/-- A helper call; the others count nothing here. -/
def call (n : Counters) : HelperCall → Counters
  | .addOneSBEntered => n.addOneSBEntered
  | .addOneIRStmt => n.addOneIRStmt
  | .addOneGuestInstr => n.addOneGuestInstr
  | .addOneFuncCall => n.addOneFuncCall
  | .addOneJcc => n.addOneJcc
  | .addOneJccUntaken => n.addOneJccUntaken
  | .addOneInvertedJcc => n.addOneInvertedJcc
  | .addOneInvertedJccUntaken => n.addOneInvertedJccUntaken
  | .addOneSBCompleted => n.addOneSBCompleted
  | .traceSuperblock _ | .incrementDetail _ _ | .trace _ => n

/-- The helper calls of a run one after the other. -/
def after (calls : List HelperCall) : Counters := calls.foldl call zero

/-- `total_Jccs` of `md_fini`, `md_main.c:1129`. -/
def totalJccs (n : Counters) : UInt64 := n.nJccs + n.nIJccs

/-- `taken_Jccs` of `md_fini`, `md_main.c:1130`. -/
def takenJccs (n : Counters) : UInt64 := (n.nJccs - n.nJccsUntaken) + n.nIJccsUntaken

end Counters

/-! ### Executions -/

namespace Guest

variable {σ : Type} (g : Guest σ)

/-- The helpers called when the instrumented superblock runs from `s`. -/
def calls : List OutStmt → σ → List HelperCall
  | [], _ => []
  | .helper call :: out, s => call :: calls out s
  | .copied st :: out, s => if g.leaves st s then [] else calls out (g.exec st s)

/-- No statement leaves. -/
def stays : List IRStmt → σ → Bool
  | [], _ => true
  | st :: stmts, s => !g.leaves st s && stays stmts (g.exec st s)

/-- Conditional branches that the client takes: exits that leave, or, when their target is the
instruction after the one they belong to, exits that do not. `next` is that target. -/
def clientTaken : Option UInt64 → List IRStmt → σ → Nat
  | _, [], _ => 0
  | _, .iMark addr len :: stmts, s =>
    clientTaken (some (addr + len.toUInt64)) stmts (g.exec (.iMark addr len) s)
  | next, .exit guard dst :: stmts, s =>
    if g.taken guard s then if next = some dst.value then 0 else 1
    else (if next = some dst.value then 1 else 0) +
      clientTaken next stmts (g.exec (.exit guard dst) s)
  | next, st :: stmts, s => clientTaken next stmts (g.exec st s)

/-- The state behind statements that do not leave. -/
def execAll (stmts : List IRStmt) (s : σ) : σ := stmts.foldl (fun s st ↦ g.exec st s) s

/-- Side exits that are executed, taken or not. -/
def sideExits : List IRStmt → σ → Nat
  | [], _ => 0
  | .exit guard dst :: stmts, s =>
    1 + if g.taken guard s then 0 else sideExits stmts (g.exec (.exit guard dst) s)
  | st :: stmts, s => sideExits stmts (g.exec st s)

end Guest

/-- An execution of an instrumented superblock that leaves, if at all, after the first
`IMark`. -/
structure Execution (opts : Options) (nEvents : Nat) (σ : Type) where
  vex : Vex
  base : UInt64
  sbIn : List (Option IRStmt)
  out : List OutStmt
  instrumented : mdInstrument opts vex nEvents base sbIn = .ok out
  guest : Guest σ
  state : σ
  inside : guest.stays (preamble sbIn).reduceOption state = true

section Runs

variable {opts : Options} {nEvents : Nat} {σ : Type}

/-- The helpers an execution calls. -/
def Execution.calls (x : Execution opts nEvents σ) : List HelperCall :=
  x.guest.calls x.out x.state

/-- The client's taken branches of an execution. -/
def Execution.clientTaken (x : Execution opts nEvents σ) : Nat :=
  x.guest.clientTaken none x.sbIn.reduceOption x.state

/-- The side exits of an execution, from the first `IMark` on. -/
def Execution.sideExits (x : Execution opts nEvents σ) : Nat :=
  x.guest.sideExits (body x.sbIn).reduceOption
    (x.guest.execAll (preamble x.sbIn).reduceOption x.state)

/-- The helpers a run calls. -/
def runHelpers (xs : List (Execution opts nEvents σ)) : List HelperCall :=
  xs.flatMap Execution.calls

end Runs

/-! ### What the instrumentation inserts -/

/-- Whether a call counts superblocks or branches. -/
def HelperCall.tallied : HelperCall → Bool
  | .addOneSBEntered | .addOneSBCompleted | .addOneJcc | .addOneJccUntaken
  | .addOneInvertedJcc | .addOneInvertedJccUntaken => true
  | _ => false

/-- The tallied ones among calls. -/
def tally (calls : List HelperCall) : List HelperCall := calls.filter HelperCall.tallied

@[simp] theorem tally_append (calls calls' : List HelperCall) :
    tally (calls ++ calls') = tally calls ++ tally calls' :=
  List.filter_append calls calls'

/-- The property holds of the result, if there is one. -/
structure Yields {α : Type} (r : Except Fault α) (P : α → Prop) : Prop where
  holds : ∀ a, r = .ok a → P a

theorem Yields.ok {α : Type} {P : α → Prop} {a : α} (h : P a) : Yields (.ok a) P := by
  constructor
  intro b hb
  cases hb
  exact h

theorem Yields.error {α : Type} {P : α → Prop} (e : Fault) : Yields (.error e) P := by
  constructor
  intro b hb
  cases hb

theorem Yields.bind {α β : Type} {P : β → Prop} {r : Except Fault α} {k : α → Except Fault β}
    (h : ∀ a, r = .ok a → Yields (k a) P) : Yields (r >>= k) P := by
  cases r with
  | error e => exact .error e
  | ok a => exact h a rfl

/-- The address after the last `IMark`, which exits compare their target with. -/
def SbOut.mark (sb : SbOut) : UInt64 := sb.iaddr + sb.ilen.toUInt64

theorem count_tally {call : HelperCall} (h : call.tallied = true) (calls : List HelperCall) :
    (tally calls).count call = calls.count call :=
  List.count_filter h

/-- From `sb` to `sb'` only calls without a tally were inserted. -/
structure Quiet (sb sb' : SbOut) : Prop where
  stmts : ∃ calls, sb'.stmts = sb.stmts ++ calls.map .helper ∧ tally calls = []
  mark : sb'.mark = sb.mark

theorem Quiet.refl (sb : SbOut) : Quiet sb sb :=
  ⟨⟨[], by simp, rfl⟩, rfl⟩

theorem Quiet.trans {sb sb₁ sb₂ : SbOut} (h : Quiet sb sb₁) (h' : Quiet sb₁ sb₂) :
    Quiet sb sb₂ := by
  obtain ⟨calls, hstmts, hcalls⟩ := h.stmts
  obtain ⟨calls', hstmts', hcalls'⟩ := h'.stmts
  refine ⟨⟨calls ++ calls', ?_, ?_⟩, h'.mark.trans h.mark⟩
  · rw [hstmts', hstmts, List.map_append, List.append_assoc]
  · rw [tally_append, hcalls, hcalls']
    rfl

theorem Quiet.addCall (sb : SbOut) {call : HelperCall} (h : call.tallied = false) :
    Quiet sb (sb.addCall call) :=
  ⟨⟨[call], rfl, by simp [tally, h]⟩, rfl⟩

theorem Quiet.flush (sb : SbOut) : Quiet sb sb.flushEvents := by
  refine ⟨⟨sb.events.map .trace, ?_, ?_⟩, rfl⟩
  · simp [SbOut.flushEvents]
  · apply List.filter_eq_nil_iff.mpr
    intro call hcall
    obtain ⟨ev, _, rfl⟩ := List.mem_map.mp hcall
    simp [HelperCall.tallied]

variable {opts : Options} {vex : Vex} {nEvents : Nat}

theorem appendEvent_quiet (sb : SbOut) (evt : Event) :
    Yields (sb.appendEvent nEvents evt) (Quiet sb) := by
  have hflush : Quiet sb (if sb.events.length = nEvents then sb.flushEvents else sb) := by
    split
    · exact .flush sb
    · exact .refl sb
  unfold SbOut.appendEvent
  generalize (if sb.events.length = nEvents then sb.flushEvents else sb) = sb₁ at hflush ⊢
  dsimp only
  split
  · exact .ok ⟨hflush.stmts, hflush.mark⟩
  · exact .error _

theorem addEventIr_quiet (sb : SbOut) (iaddr : IRExpr) (isize : UInt32) :
    Yields (addEventIr vex nEvents sb iaddr isize) (Quiet sb) := by
  unfold addEventIr
  split
  · exact appendEvent_quiet sb _
  · exact .error _

theorem addEventDr_quiet (sb : SbOut) (daddr : IRExpr) (dsize : Int) :
    Yields (addEventDr nEvents sb daddr dsize) (Quiet sb) := by
  unfold addEventDr
  split
  · exact appendEvent_quiet sb _
  · exact .error _

theorem addEventDw_quiet (sb : SbOut) (daddr : IRExpr) (dsize : Int) :
    Yields (addEventDw nEvents sb daddr dsize) (Quiet sb) := by
  unfold addEventDw
  split
  · split
    · split
      · exact .ok ⟨(Quiet.refl sb).stmts, rfl⟩
      · exact appendEvent_quiet sb _
    · exact appendEvent_quiet sb _
  · exact .error _

theorem instrumentDetail_quiet (sb : SbOut) (op : Op) (type : IRType) :
    Yields (instrumentDetail sb op type) (Quiet sb) := by
  unfold instrumentDetail
  split
  · exact .ok (.addCall sb rfl)
  · exact .error _

/-- The call before an exit: whether its condition was inverted. -/
def exitCall (mark : UInt64) (dst : IRConst) : HelperCall :=
  if dst.value = mark then .addOneInvertedJcc else .addOneJcc

/-- The call behind an exit. -/
def untakenCall (mark : UInt64) (dst : IRConst) : HelperCall :=
  if dst.value = mark then .addOneInvertedJccUntaken else .addOneJccUntaken

/-- The tallied calls before a statement's copy. -/
def IRStmt.tallyBefore (mark : UInt64) : IRStmt → List HelperCall
  | .exit _ dst => [exitCall mark dst]
  | _ => []

/-- The tallied calls behind a statement's copy. -/
def IRStmt.tallyAfter (mark : UInt64) : IRStmt → List HelperCall
  | .exit _ dst => [untakenCall mark dst]
  | _ => []

/-- The address that exits after the statement compare with. -/
def IRStmt.nextMark (mark : UInt64) : IRStmt → UInt64
  | .iMark addr len => addr + len.toUInt64
  | _ => mark

/-- From `sb` to `sb'` the statement was copied between calls with the given tallies. -/
structure Tallies (sb : SbOut) (st : IRStmt) (sb' : SbOut) : Prop where
  stmts : ∃ before after,
    sb'.stmts = sb.stmts ++ (before.map .helper ++ .copied st :: after.map .helper) ∧
      tally before = st.tallyBefore sb.mark ∧ tally after = st.tallyAfter sb.mark
  mark : sb'.mark = st.nextMark sb.mark

/-- A statement that is neither a mark nor an exit. -/
def IRStmt.plain (st : IRStmt) : Prop :=
  ∀ mark, st.tallyBefore mark = [] ∧ st.tallyAfter mark = [] ∧ st.nextMark mark = mark

theorem Quiet.copy {sb sb₁ : SbOut} {st : IRStmt} (h : Quiet sb sb₁) (hst : st.plain) :
    Tallies sb st (sb₁.addStmtToIRSB st) := by
  obtain ⟨calls, hstmts, hcalls⟩ := h.stmts
  obtain ⟨hbefore, hafter, hmark⟩ := hst sb.mark
  refine ⟨⟨calls, [], ?_, ?_, ?_⟩, ?_⟩
  · simp [SbOut.addStmtToIRSB, hstmts]
  · rw [hcalls, hbefore]
  · rw [hafter]
    rfl
  · rw [hmark]
    exact h.mark

/-- A step without a tally, then the rest of a statement's instrumentation. -/
theorem Quiet.bind {sb sb₁ : SbOut} {r : Except Fault SbOut} {k : SbOut → Except Fault SbOut}
    {P : SbOut → Prop} (h : Quiet sb sb₁) (hr : Yields r (Quiet sb₁))
    (hk : ∀ sb₂, Quiet sb sb₂ → Yields (k sb₂) P) : Yields (r >>= k) P := by
  apply Yields.bind
  intro sb₂ hsb₂
  exact hk sb₂ (h.trans (hr.holds sb₂ hsb₂))

theorem instrumentWrTmp_tallies (sb : SbOut) (tmp : IRTemp) (data : IRExpr) :
    Yields (instrumentWrTmp vex nEvents sb tmp data) (Tallies sb (.wrTmp tmp data)) := by
  have hplain : (IRStmt.wrTmp tmp data).plain := fun _ ↦ ⟨rfl, rfl, rfl⟩
  have hcounted (sb₁ : SbOut) (h : Quiet sb sb₁) (op : Op) : Yields (do
      let sb ← instrumentDetail sb₁ op (vex.typeOfIRExpr data)
      pure (sb.addStmtToIRSB (.wrTmp tmp data))) (Tallies sb (.wrTmp tmp data)) := by
    apply h.bind (instrumentDetail_quiet sb₁ _ _)
    intro sb₂ h₂
    exact .ok (h₂.copy hplain)
  unfold instrumentWrTmp
  dsimp only
  split
  · apply (Quiet.refl sb).bind (addEventDr_quiet sb _ _)
    intro sb₁ h
    split
    · exact .error _
    · split
      · exact hcounted sb₁ h _
      · exact .ok (h.copy hplain)
  · split
    · exact .error _
    · split
      · exact hcounted sb (.refl sb) _
      · exact .ok ((Quiet.refl sb).copy hplain)

theorem instrumentStore_tallies (sb : SbOut) (addr data : IRExpr) :
    Yields (instrumentStore vex nEvents sb addr data) (Tallies sb (.store addr data)) := by
  have hplain : (IRStmt.store addr data).plain := fun _ ↦ ⟨rfl, rfl, rfl⟩
  unfold instrumentStore
  apply (Quiet.refl sb).bind (addEventDw_quiet sb _ _)
  intro sb₁ h
  dsimp only
  split
  · exact .error _
  · apply h.bind (instrumentDetail_quiet sb₁ _ _)
    intro sb₂ h₂
    exact .ok (h₂.copy hplain)

theorem instrumentDirty_tallies (sb : SbOut) (d : IRDirty) :
    Yields (instrumentDirty nEvents sb d) (Tallies sb (.dirty d)) := by
  have hplain : (IRStmt.dirty d).plain := fun _ ↦ ⟨rfl, rfl, rfl⟩
  have hcopy (sb₁ : SbOut) (h : Quiet sb sb₁) :
      Yields (.ok (sb₁.addStmtToIRSB (.dirty d))) (Tallies sb (.dirty d)) := .ok (h.copy hplain)
  have hwrite (sb₁ : SbOut) (h : Quiet sb sb₁) (mFx : IREffect) (mAddr : IRExpr) :
      Yields (if mFx = .Write ∨ mFx = .Modify then do
          let sb ← addEventDw nEvents sb₁ mAddr d.mSize
          pure (sb.addStmtToIRSB (.dirty d))
        else pure (sb₁.addStmtToIRSB (.dirty d))) (Tallies sb (.dirty d)) := by
    split
    · apply h.bind (addEventDw_quiet sb₁ _ _)
      exact hcopy
    · exact hcopy sb₁ h
  unfold instrumentDirty
  dsimp only
  split
  · split
    · exact .error _
    · exact hcopy sb (.refl sb)
  · exact .error _
  · exact .error _
  · split
    · exact .error _
    · split
      · apply (Quiet.refl sb).bind (addEventDr_quiet sb _ _)
        intro sb₁ h
        exact hwrite sb₁ h _ _
      · exact hwrite sb (.refl sb) _ _

theorem instrumentCAS_tallies (sb : SbOut) (details : IRCAS) :
    Yields (instrumentCAS vex nEvents sb details) (Tallies sb (.cas details)) := by
  have hplain : (IRStmt.cas details).plain := fun _ ↦ ⟨rfl, rfl, rfl⟩
  unfold instrumentCAS
  dsimp only
  split
  · split
    · apply (Quiet.refl sb).bind (addEventDr_quiet sb _ _)
      intro sb₁ h
      apply h.bind (addEventDw_quiet sb₁ _ _)
      intro sb₁ h
      apply h.bind (instrumentDetail_quiet sb₁ _ _)
      intro sb₁ h
      split
      · apply h.bind (instrumentDetail_quiet sb₁ _ _)
        intro sb₁ h
        apply h.bind (instrumentDetail_quiet sb₁ _ _)
        intro sb₁ h
        apply h.bind (instrumentDetail_quiet sb₁ _ _)
        intro sb₁ h
        exact .ok (h.copy hplain)
      · apply h.bind (instrumentDetail_quiet sb₁ _ _)
        intro sb₁ h
        exact .ok (h.copy hplain)
    · exact .error _
  · exact .error _

theorem instrumentLLSC_tallies (sb : SbOut) (result : IRTemp) (addr : IRExpr)
    (storedata : Option IRExpr) :
    Yields (instrumentLLSC vex nEvents sb result addr storedata)
      (Tallies sb (.llsc result addr storedata)) := by
  have hplain : (IRStmt.llsc result addr storedata).plain := fun _ ↦ ⟨rfl, rfl, rfl⟩
  unfold instrumentLLSC
  cases storedata with
  | none =>
    apply (Quiet.refl sb).bind (addEventDr_quiet sb _ _)
    intro sb₁ h
    have hflush : Quiet sb sb₁.flushEvents := h.trans (.flush sb₁)
    apply hflush.bind (instrumentDetail_quiet _ _ _)
    intro sb₂ h₂
    exact .ok (h₂.copy hplain)
  | some data =>
    apply (Quiet.refl sb).bind (addEventDw_quiet sb _ _)
    intro sb₁ h
    apply h.bind (instrumentDetail_quiet sb₁ _ _)
    intro sb₂ h₂
    exact .ok (h₂.copy hplain)

section Counting

variable (hcounts : opts.basicCounts = true)

include hcounts

theorem count_eq (sb : SbOut) (call : HelperCall) : sb.count opts call = sb.addCall call := by
  rw [SbOut.count, hcounts]
  rfl

theorem instrumentIMark_tallies (sb : SbOut) (addr : UInt64) (len : UInt32) :
    Yields (instrumentIMark opts vex nEvents sb addr len) (Tallies sb (.iMark addr len)) := by
  let marked : SbOut := { sb with iaddr := addr, ilen := len }
  have hrest (sb₁ : SbOut) (h : Quiet marked sb₁) :
      Yields (addEventIr vex nEvents sb₁ (mkIRExprHWord addr) len >>= fun sb ↦
        pure (sb.addStmtToIRSB (.iMark addr len))) (Tallies sb (.iMark addr len)) := by
    apply h.bind (addEventIr_quiet sb₁ _ _)
    intro sb₂ h₂
    obtain ⟨calls, hstmts, hcalls⟩ := h₂.stmts
    apply Yields.ok
    refine ⟨⟨calls, [], ?_, hcalls, rfl⟩, h₂.mark⟩
    simp [SbOut.addStmtToIRSB, hstmts, marked]
  have hguest : Quiet marked (marked.addCall .addOneGuestInstr) := .addCall marked rfl
  simp only [instrumentIMark, hcounts, if_true]
  split
  · exact .error _
  · split
    · exact hrest _ (hguest.trans (.addCall _ rfl))
    · exact hrest _ hguest

theorem instrumentExit_tallies (sb : SbOut) (guard : IRExpr) (dst : IRConst) :
    Yields (instrumentExit opts sb guard dst) (Tallies sb (.exit guard dst)) := by
  unfold instrumentExit
  simp only [count_eq hcounts]
  split
  · exact .error _
  · apply Yields.ok
    obtain ⟨calls, hstmts, hcalls⟩ := (Quiet.flush (sb.addCall (exitCall sb.mark dst))).stmts
    refine ⟨⟨exitCall sb.mark dst :: calls, [untakenCall sb.mark dst], ?_, ?_, ?_⟩, rfl⟩
    · change ((sb.addCall (exitCall sb.mark dst)).flushEvents.stmts ++
        [.copied (.exit guard dst)]) ++ [.helper (untakenCall sb.mark dst)] = _
      rw [hstmts]
      simp [SbOut.addCall]
    · have hcall : (exitCall sb.mark dst).tallied = true := by
        unfold exitCall
        split
        · rfl
        · rfl
      rw [← List.singleton_append, tally_append, hcalls]
      simp [tally, hcall, IRStmt.tallyBefore]
    · have hcall : (untakenCall sb.mark dst).tallied = true := by
        unfold untakenCall
        split
        · rfl
        · rfl
      simp [tally, hcall, IRStmt.tallyAfter]

/-- Each case of the switch copies its statement between calls with the tallies of the
statement. -/
theorem instrumentStmt_tallies (sb : SbOut) (st : IRStmt) :
    Yields (instrumentStmt opts vex nEvents sb st) (Tallies sb st) := by
  have hplain (hst : st.plain) : Yields (.ok (sb.addStmtToIRSB st)) (Tallies sb st) :=
    .ok ((Quiet.refl sb).copy hst)
  cases st with
  | iMark addr len => exact instrumentIMark_tallies hcounts sb addr len
  | wrTmp tmp data => exact instrumentWrTmp_tallies sb tmp data
  | store addr data => exact instrumentStore_tallies sb addr data
  | dirty d => exact instrumentDirty_tallies sb d
  | cas details => exact instrumentCAS_tallies sb details
  | llsc result addr storedata => exact instrumentLLSC_tallies sb result addr storedata
  | exit guard dst => exact instrumentExit_tallies hcounts sb guard dst
  | noOp => exact hplain fun _ ↦ ⟨rfl, rfl, rfl⟩
  | abiHint base len => exact hplain fun _ ↦ ⟨rfl, rfl, rfl⟩
  | put offset data => exact hplain fun _ ↦ ⟨rfl, rfl, rfl⟩
  | putI ix bias data => exact hplain fun _ ↦ ⟨rfl, rfl, rfl⟩
  | mbe event => exact hplain fun _ ↦ ⟨rfl, rfl, rfl⟩

end Counting

/-! ### The tallied calls of an execution -/

namespace Guest

variable {σ : Type} (g : Guest σ)

/-- The tallied calls of the original statements that run from `s`, then those behind the last
one. -/
def branches (last : List HelperCall) : UInt64 → List IRStmt → σ → List HelperCall
  | _, [], _ => last
  | mark, .exit guard dst :: stmts, s =>
    exitCall mark dst :: if g.taken guard s then []
      else untakenCall mark dst :: branches last mark stmts (g.exec (.exit guard dst) s)
  | mark, st :: stmts, s => branches last (st.nextMark mark) stmts (g.exec st s)

/-- Calls are made where they stand. -/
theorem calls_helpers (calls : List HelperCall) (out : List OutStmt) (s : σ) :
    g.calls (calls.map .helper ++ out) s = calls ++ g.calls out s := by
  induction calls with
  | nil => rfl
  | cons call calls ih => rw [List.map_cons, List.cons_append, Guest.calls, ih, List.cons_append]

theorem calls_copied (calls : List HelperCall) (st : IRStmt) (out : List OutStmt) (s : σ) :
    g.calls (calls.map .helper ++ .copied st :: out) s =
      calls ++ if g.leaves st s then [] else g.calls out (g.exec st s) := by
  rw [g.calls_helpers, Guest.calls]

theorem branches_cons (last : List HelperCall) (mark : UInt64) (st : IRStmt)
    (stmts : List IRStmt) (s : σ) :
    g.branches last mark (st :: stmts) s =
      st.tallyBefore mark ++ if g.leaves st s then []
        else st.tallyAfter mark ++ g.branches last (st.nextMark mark) stmts (g.exec st s) := by
  cases st with
  | exit guard dst => rfl
  | _ => rfl

end Guest

theorem instrumentStmts_branches (hcounts : opts.basicCounts = true)
    {stmts : List (Option IRStmt)} {sb sb' : SbOut}
    (h : instrumentStmts opts vex nEvents sb stmts = .ok sb') :
    ∃ tail, sb'.stmts = sb.stmts ++ tail ∧ ∀ {σ : Type} (g : Guest σ) (s : σ)
      (final : List HelperCall), tally (g.calls (tail ++ final.map .helper) s) =
        g.branches (tally final) sb.mark stmts.reduceOption s := by
  induction stmts generalizing sb with
  | nil =>
    cases h
    refine ⟨[], (List.append_nil _).symm, ?_⟩
    intro σ g s final
    have hfinal := g.calls_helpers final [] s
    rw [List.append_nil] at hfinal
    rw [List.nil_append, hfinal]
    simp [Guest.calls, Guest.branches]
  | cons st stmts ih =>
    cases st with
    | none => exact ih h
    | some st =>
      rw [List.reduceOption_cons_of_some]
      by_cases hst : st = .noOp
      · subst hst
        obtain ⟨tail, hstmts, hcalls⟩ := ih h
        refine ⟨tail, hstmts, ?_⟩
        intro σ g s final
        rw [hcalls g s final, Guest.branches_cons, g.noOp]
        rfl
      · rw [instrumentStmts_some hst, count_eq hcounts] at h
        cases hr : instrumentStmt opts vex nEvents (sb.addCall .addOneIRStmt) st with
        | error e =>
          rw [hr] at h
          cases h
        | ok sb₁ =>
          rw [hr] at h
          obtain ⟨⟨before, after, hcopied, hbefore, hafter⟩, hmark⟩ :=
            (instrumentStmt_tallies hcounts (sb.addCall .addOneIRStmt) st).holds sb₁ hr
          obtain ⟨tail, hstmts, hcalls⟩ := ih h
          refine ⟨(.addOneIRStmt :: before).map .helper ++
            .copied st :: (after.map .helper ++ tail), ?_, ?_⟩
          · rw [hstmts, hcopied]
            simp [SbOut.addCall]
          · intro σ g s final
            have hrest := hcalls g (g.exec st s) final
            have hnext : sb₁.mark = st.nextMark sb.mark := hmark
            have hcounted : tally (.addOneIRStmt :: before) = st.tallyBefore sb.mark := hbefore
            rw [List.append_assoc, List.cons_append, List.append_assoc, g.calls_copied,
              tally_append, hcounted, Guest.branches_cons, ← hnext, ← hrest]
            congr 1
            split
            · rfl
            · rw [g.calls_helpers, tally_append, hafter]
              rfl

/-- The preamble has no null statement when it could be copied. -/
theorem copyPreamble_none {sbIn : List (Option IRStmt)} {sb : SbOut}
    {r : SbOut × List (Option IRStmt)} (h : copyPreamble sb sbIn = .ok r) :
    none ∉ preamble sbIn := by
  induction sbIn generalizing sb with
  | nil => simp [preamble]
  | cons st sbIn ih =>
    cases st with
    | none => cases h
    | some st =>
      cases hmark : st.isIMark with
      | true => simp [hmark]
      | false =>
        simp only [copyPreamble, hmark, Bool.false_eq_true, if_false] at h
        simp [hmark, ih h]

theorem Guest.calls_preamble {σ : Type} (g : Guest σ) {stmts : List IRStmt} {s : σ}
    (h : g.stays stmts s = true) (out : List OutStmt) :
    g.calls (stmts.map .copied ++ out) s = g.calls out (g.execAll stmts s) := by
  induction stmts generalizing s with
  | nil => rfl
  | cons st stmts ih =>
    simp only [Guest.stays, Bool.and_eq_true, Bool.not_eq_true'] at h
    rw [List.map_cons, List.cons_append, Guest.calls, h.1, ih h.2]
    rfl

/-- An execution counts itself, then its branches, then its completion when it falls through. -/
theorem Execution.tally_calls (hcounts : opts.basicCounts = true) {σ : Type}
    (x : Execution opts nEvents σ) :
    ∃ mark, tally x.calls = .addOneSBEntered ::
      x.guest.branches [.addOneSBCompleted] mark (body x.sbIn).reduceOption
        (x.guest.execAll (preamble x.sbIn).reduceOption x.state) := by
  have h := x.instrumented
  unfold mdInstrument at h
  cases hpre : copyPreamble ⟨[], [], 0, 0⟩ x.sbIn with
  | error e =>
    rw [hpre] at h
    cases h
  | ok r =>
    have hnone := copyPreamble_none hpre
    rw [copyPreamble_spec hnone] at h
    simp only [count_eq hcounts, List.nil_append] at h
    let pre : List OutStmt := (preamble x.sbIn).reduceOption.map .copied
    let start : SbOut := ⟨pre ++ [.helper .addOneSBEntered, .helper (.traceSuperblock x.base)],
      [], 0, 0⟩
    have hstart : ({ ((⟨pre, [], 0, 0⟩ : SbOut).addCall .addOneSBEntered).addCall
        (.traceSuperblock x.base) with events := [] } : SbOut) = start := by
      simp [start, SbOut.addCall]
    change (instrumentStmts opts x.vex nEvents _ (body x.sbIn) >>= fun sb ↦
      .ok (sb.addCall .addOneSBCompleted).flushEvents.stmts) = .ok x.out at h
    rw [hstart] at h
    cases hsb : instrumentStmts opts x.vex nEvents start (body x.sbIn) with
    | error e =>
      rw [hsb] at h
      cases h
    | ok sb =>
      rw [hsb] at h
      have hout : (sb.addCall .addOneSBCompleted).flushEvents.stmts = x.out := Except.ok.inj h
      obtain ⟨tail, hstmts, hcalls⟩ := instrumentStmts_branches hcounts hsb
      obtain ⟨final, hfinal, hquiet⟩ := (Quiet.flush (sb.addCall .addOneSBCompleted)).stmts
      have hsplit : x.out = (preamble x.sbIn).reduceOption.map .copied ++
          ([.addOneSBEntered, .traceSuperblock x.base].map OutStmt.helper ++
            (tail ++ (.addOneSBCompleted :: final).map .helper)) := by
        rw [← hout, hfinal]
        simp [SbOut.addCall, hstmts, start, pre]
      refine ⟨start.mark, ?_⟩
      have hlast : tally (.addOneSBCompleted :: final) = [.addOneSBCompleted] := by
        rw [← List.singleton_append, tally_append, hquiet]
        rfl
      rw [Execution.calls, hsplit, x.guest.calls_preamble x.inside, x.guest.calls_helpers,
        tally_append, hcalls x.guest _ (.addOneSBCompleted :: final), hlast]
      rfl

/-! ### Conservation -/

/-- In every initial part of the calls no more exits fell through than were executed. -/
def Balanced (calls : List HelperCall) : Prop :=
  ∀ m, (calls.take m).count .addOneJccUntaken ≤ (calls.take m).count .addOneJcc ∧
    (calls.take m).count .addOneInvertedJccUntaken ≤ (calls.take m).count .addOneInvertedJcc

theorem Balanced.whole {calls : List HelperCall} (h : Balanced calls) :
    calls.count .addOneJccUntaken ≤ calls.count .addOneJcc ∧
      calls.count .addOneInvertedJccUntaken ≤ calls.count .addOneInvertedJcc := by
  have := h calls.length
  rwa [List.take_length] at this

theorem Balanced.append {calls calls' : List HelperCall} (h : Balanced calls)
    (h' : Balanced calls') : Balanced (calls ++ calls') := by
  intro m
  have hleft := h m
  have hright := h' (m - calls.length)
  simp only [List.take_append, List.count_append]
  omega

theorem Balanced.flatMap {α : Type} {xs : List α} {f : α → List HelperCall}
    (h : ∀ x ∈ xs, Balanced (f x)) : Balanced (xs.flatMap f) := by
  induction xs with
  | nil =>
    intro m
    simp
  | cons x xs ih =>
    rw [List.flatMap_cons]
    apply (h x (by simp)).append
    apply ih
    intro y hy
    exact h y (by simp [hy])

/-- Calls without a tally do not matter. -/
theorem Balanced.of_tally {calls : List HelperCall} (h : Balanced (tally calls)) :
    Balanced calls := by
  intro m
  have hprefix : tally (calls.take m) <+: tally calls := (List.take_prefix m calls).filter _
  have hbound := h (tally (calls.take m)).length
  rw [← List.prefix_iff_eq_take.mp hprefix] at hbound
  rwa [count_tally rfl, count_tally rfl, count_tally rfl, count_tally rfl] at hbound

private theorem balanced_exit (mark : UInt64) (dst : IRConst) : Balanced [exitCall mark dst] := by
  intro m
  cases m with
  | zero => simp
  | succ m =>
    unfold exitCall
    split
    · simp
    · simp

private theorem balanced_untaken (mark : UInt64) (dst : IRConst) :
    Balanced [exitCall mark dst, untakenCall mark dst] := by
  intro m
  rcases m with _ | _ | m
  · simp
  · exact balanced_exit mark dst 1
  · unfold exitCall untakenCall
    split
    · simp
    · simp

/-- What calls count: superblocks entered, side exits executed and branches taken. -/
structure Conserves (calls : List HelperCall) (superblocks sideExits clientTaken : Nat) :
    Prop where
  balanced : Balanced calls
  completed : calls.count .addOneSBCompleted + calls.count .addOneJcc +
      calls.count .addOneInvertedJcc =
    superblocks + calls.count .addOneJccUntaken + calls.count .addOneInvertedJccUntaken
  exits : calls.count .addOneJcc + calls.count .addOneInvertedJcc = sideExits
  taken : clientTaken + calls.count .addOneJccUntaken =
    calls.count .addOneJcc + calls.count .addOneInvertedJccUntaken

theorem Conserves.append {calls calls' : List HelperCall} {n n' e e' t t' : Nat}
    (h : Conserves calls n e t) (h' : Conserves calls' n' e' t') :
    Conserves (calls ++ calls') (n + n') (e + e') (t + t') := by
  have hcompleted := h.completed
  have hcompleted' := h'.completed
  have hexits := h.exits
  have hexits' := h'.exits
  have htaken := h.taken
  have htaken' := h'.taken
  constructor
  · exact h.balanced.append h'.balanced
  · simp only [List.count_append]
    omega
  · simp only [List.count_append]
    omega
  · simp only [List.count_append]
    omega

/-- The tallied calls decide. -/
theorem Conserves.of_tally {calls : List HelperCall} {n e t : Nat}
    (h : Conserves (tally calls) n e t) : Conserves calls n e t := by
  obtain ⟨hbalanced, hcompleted, hexits, htaken⟩ := h
  have hcount (call : HelperCall) (hcall : call.tallied = true) :
      (tally calls).count call = calls.count call := count_tally hcall calls
  rw [hcount .addOneSBCompleted rfl] at hcompleted
  simp only [hcount .addOneJcc rfl, hcount .addOneJccUntaken rfl, hcount .addOneInvertedJcc rfl,
    hcount .addOneInvertedJccUntaken rfl] at hcompleted hexits htaken
  exact ⟨hbalanced.of_tally, hcompleted, hexits, htaken⟩

theorem branches_conserves {σ : Type} (g : Guest σ) (mark : UInt64) (stmts : List IRStmt) (s : σ) :
    Conserves (g.branches [.addOneSBCompleted] mark stmts s) 1 (g.sideExits stmts s)
      (g.clientTaken (some mark) stmts s) := by
  induction stmts generalizing mark s with
  | nil =>
    refine ⟨?_, rfl, rfl, rfl⟩
    intro m
    cases m with
    | zero => simp [Guest.branches]
    | succ m => simp [Guest.branches]
  | cons st stmts ih =>
    cases st with
    | exit guard dst =>
      have hrest := ih mark (g.exec (.exit guard dst) s)
      rw [Guest.branches, Guest.sideExits, Guest.clientTaken]
      cases ht : g.taken guard s with
      | true =>
        simp only [if_true]
        refine ⟨balanced_exit mark dst, ?_, ?_, ?_⟩ <;>
          · unfold exitCall
            by_cases hinv : dst.value = mark
            · simp [hinv]
            · simp [hinv, Ne.symm hinv]
      | false =>
        simp only [Bool.false_eq_true, if_false]
        obtain ⟨hbalanced, hcompleted, hexits, htaken⟩ := hrest
        refine ⟨(balanced_untaken mark dst).append hbalanced, ?_, ?_, ?_⟩ <;>
          · unfold exitCall untakenCall
            by_cases hinv : dst.value = mark
            · simp [hinv]
              omega
            · simp [hinv, Ne.symm hinv]
              omega
    | iMark addr len => exact ih (addr + len.toUInt64) (g.exec (.iMark addr len) s)
    | _ => exact ih mark _

/-- The branches of an execution count no entry. -/
theorem count_entered_branches {σ : Type} (g : Guest σ) (mark : UInt64) (stmts : List IRStmt)
    (s : σ) :
    (g.branches [.addOneSBCompleted] mark stmts s).count .addOneSBEntered = 0 := by
  induction stmts generalizing mark s with
  | nil => rfl
  | cons st stmts ih =>
    cases st with
    | exit guard dst =>
      have hrest := ih mark (g.exec (.exit guard dst) s)
      rw [Guest.branches]
      unfold exitCall untakenCall
      split <;> split <;> simp [hrest]
    | _ => exact ih _ _

/-- Untaken exits of the preamble take no branch. -/
theorem clientTaken_preamble {σ : Type} (g : Guest σ) {sbIn : List (Option IRStmt)} {s : σ}
    (h : g.stays (preamble sbIn).reduceOption s = true) (mark : UInt64) :
    g.clientTaken none sbIn.reduceOption s =
      g.clientTaken (some mark) (body sbIn).reduceOption
        (g.execAll (preamble sbIn).reduceOption s) := by
  induction sbIn generalizing s with
  | nil => rfl
  | cons st sbIn ih =>
    cases st with
    | none => exact ih h
    | some st =>
      cases hmark : st.isIMark with
      | true =>
        cases st with
        | iMark addr len =>
          simp only [preamble_cons, body_cons, Option.any_some, hmark, if_true]
          rfl
        | _ => cases hmark
      | false =>
        simp only [preamble_cons, body_cons, Option.any_some, hmark, Bool.false_eq_true, if_false,
          List.reduceOption_cons_of_some, Guest.stays, Bool.and_eq_true,
          Bool.not_eq_true'] at h ⊢
        rw [Guest.execAll, List.foldl_cons, ← Guest.execAll, ← ih h.2]
        cases st with
        | iMark addr len => cases hmark
        | exit guard dst =>
          have hstay : g.taken guard s = false := h.1
          simp [Guest.clientTaken, hstay]
        | _ => rfl

section Runs

variable (hcounts : opts.basicCounts = true) {σ : Type}

include hcounts

theorem Execution.conserves (x : Execution opts nEvents σ) :
    Conserves x.calls 1 x.sideExits x.clientTaken ∧ x.calls.count .addOneSBEntered = 1 := by
  obtain ⟨mark, hcalls⟩ := x.tally_calls hcounts
  have hbranches := branches_conserves x.guest mark (body x.sbIn).reduceOption
    (x.guest.execAll (preamble x.sbIn).reduceOption x.state)
  rw [← clientTaken_preamble x.guest x.inside mark] at hbranches
  constructor
  · apply Conserves.of_tally
    rw [hcalls]
    refine ⟨?_, ?_, ?_, ?_⟩
    · rw [← List.singleton_append]
      apply Balanced.append _ hbranches.balanced
      intro m
      cases m with
      | zero => simp
      | succ m => simp
    · simpa using hbranches.completed
    · simpa [Execution.sideExits] using hbranches.exits
    · simpa [Execution.clientTaken] using hbranches.taken
  · rw [← count_tally rfl, hcalls]
    simp [count_entered_branches]

/-- A run conserves what its executions do. -/
theorem runHelpers_conserves (xs : List (Execution opts nEvents σ)) :
    Conserves (runHelpers xs) xs.length (xs.map Execution.sideExits).sum
        (xs.map Execution.clientTaken).sum ∧
      (runHelpers xs).count .addOneSBEntered = xs.length := by
  induction xs with
  | nil =>
    refine ⟨⟨?_, rfl, rfl, rfl⟩, rfl⟩
    intro m
    simp [runHelpers]
  | cons x xs ih =>
    have hx := x.conserves hcounts
    rw [runHelpers, List.flatMap_cons, List.map_cons, List.map_cons, List.sum_cons, List.sum_cons,
      List.length_cons, Nat.add_comm xs.length]
    refine ⟨hx.1.append ih.1, ?_⟩
    rw [List.count_append, hx.2]
    congr 1
    exact ih.2

end Runs

/-! ### The counters at 64 bits -/

/-- A counter that one helper bumps holds the number of its calls. -/
theorem count_calls {f : Counters → UInt64} {k : HelperCall}
    (hf : ∀ (n : Counters) (call : HelperCall),
      f (n.call call) = if call = k then f n + 1 else f n) (calls : List HelperCall)
    (n : Counters) : f (calls.foldl Counters.call n) = f n + .ofNat (calls.count k) := by
  induction calls generalizing n with
  | nil => simp
  | cons call calls ih =>
    rw [List.foldl_cons, ih, hf, List.count_cons]
    by_cases h : call = k
    · simp only [h, if_true, beq_self_eq_true]
      rw [UInt64.ofNat_add, UInt64.add_assoc, UInt64.add_comm 1]
      rfl
    · simp [h]

namespace Counters

/-- What the counters that `md_fini` combines hold after the calls. -/
structure Counted (n : Counters) (calls : List HelperCall) : Prop where
  entered : n.nSBsEntered = .ofNat (calls.count .addOneSBEntered)
  completed : n.nSBsCompleted = .ofNat (calls.count .addOneSBCompleted)
  jccs : n.nJccs = .ofNat (calls.count .addOneJcc)
  jccsUntaken : n.nJccsUntaken = .ofNat (calls.count .addOneJccUntaken)
  iJccs : n.nIJccs = .ofNat (calls.count .addOneInvertedJcc)
  iJccsUntaken : n.nIJccsUntaken = .ofNat (calls.count .addOneInvertedJccUntaken)

theorem counted_after (calls : List HelperCall) : (after calls).Counted calls := by
  have hcount (f : Counters → UInt64) (k : HelperCall) (hzero : f zero = 0)
      (hf : ∀ (n : Counters) (call : HelperCall),
        f (n.call call) = if call = k then f n + 1 else f n) :
      f (after calls) = .ofNat (calls.count k) := by
    rw [after, count_calls hf, hzero, UInt64.zero_add]
  constructor
  · apply hcount nSBsEntered _ rfl
    intro n call
    cases call <;> rfl
  · apply hcount nSBsCompleted _ rfl
    intro n call
    cases call <;> rfl
  · apply hcount nJccs _ rfl
    intro n call
    cases call <;> rfl
  · apply hcount nJccsUntaken _ rfl
    intro n call
    cases call <;> rfl
  · apply hcount nIJccs _ rfl
    intro n call
    cases call <;> rfl
  · apply hcount nIJccsUntaken _ rfl
    intro n call
    cases call <;> rfl

/-- Untaken branches are among the executed ones and `md_fini`'s taken count is the exact one. -/
structure Coherent (n : Counters) : Prop where
  untaken_le : n.nJccsUntaken ≤ n.nJccs
  inverted_le : n.nIJccsUntaken ≤ n.nIJccs
  exact : n.takenJccs.toNat = n.nJccs.toNat - n.nJccsUntaken.toNat + n.nIJccsUntaken.toNat
  taken_le : n.takenJccs ≤ n.totalJccs

/-- Superblocks that were entered completed or left at a taken exit, in 64-bit arithmetic. -/
def Balances (n : Counters) : Prop :=
  n.nSBsEntered = n.nSBsCompleted + (n.nJccs - n.nJccsUntaken) + (n.nIJccs - n.nIJccsUntaken)

theorem coherent_of_counted {n : Counters} {calls : List HelperCall} (h : n.Counted calls)
    (hle : calls.count .addOneJccUntaken ≤ calls.count .addOneJcc)
    (hile : calls.count .addOneInvertedJccUntaken ≤ calls.count .addOneInvertedJcc)
    (hfit : calls.count .addOneJcc + calls.count .addOneInvertedJcc < 2 ^ 64) :
    n.Coherent ∧ n.takenJccs.toNat = calls.count .addOneJcc - calls.count .addOneJccUntaken +
      calls.count .addOneInvertedJccUntaken := by
  have hj : n.nJccs.toNat = calls.count .addOneJcc := by
    rw [h.jccs, UInt64.toNat_ofNat', Nat.mod_eq_of_lt (by omega)]
  have hju : n.nJccsUntaken.toNat = calls.count .addOneJccUntaken := by
    rw [h.jccsUntaken, UInt64.toNat_ofNat', Nat.mod_eq_of_lt (by omega)]
  have hi : n.nIJccs.toNat = calls.count .addOneInvertedJcc := by
    rw [h.iJccs, UInt64.toNat_ofNat', Nat.mod_eq_of_lt (by omega)]
  have hiu : n.nIJccsUntaken.toNat = calls.count .addOneInvertedJccUntaken := by
    rw [h.iJccsUntaken, UInt64.toNat_ofNat', Nat.mod_eq_of_lt (by omega)]
  have huntaken : n.nJccsUntaken ≤ n.nJccs := by
    rw [UInt64.le_iff_toNat_le, hj, hju]
    exact hle
  have htaken : n.takenJccs.toNat = calls.count .addOneJcc - calls.count .addOneJccUntaken +
      calls.count .addOneInvertedJccUntaken := by
    rw [takenJccs, UInt64.toNat_add, UInt64.toNat_sub_of_le _ _ huntaken, hj, hju, hiu,
      Nat.mod_eq_of_lt (by omega)]
  have htotal : n.totalJccs.toNat = calls.count .addOneJcc + calls.count .addOneInvertedJcc := by
    rw [totalJccs, UInt64.toNat_add, hj, hi, Nat.mod_eq_of_lt hfit]
  refine ⟨⟨huntaken, ?_, ?_, ?_⟩, htaken⟩
  · rw [UInt64.le_iff_toNat_le, hi, hiu]
    exact hile
  · rw [htaken, hj, hju, hiu]
  · rw [UInt64.le_iff_toNat_le, htaken, htotal]
    omega

theorem balances_of_counted {n : Counters} {calls : List HelperCall} (h : n.Counted calls)
    (hcounts : calls.count .addOneSBEntered + calls.count .addOneJccUntaken +
        calls.count .addOneInvertedJccUntaken =
      calls.count .addOneSBCompleted + calls.count .addOneJcc +
        calls.count .addOneInvertedJcc) : n.Balances := by
  have hcast := congrArg UInt64.ofNat hcounts
  simp only [UInt64.ofNat_add] at hcast
  rw [← h.entered, ← h.completed, ← h.jccs, ← h.jccsUntaken, ← h.iJccs, ← h.iJccsUntaken] at hcast
  unfold Balances
  grind

end Counters

/-- Over every run of instrumented superblocks the counters balance; while fewer than 2^64 side
exits have been executed they are coherent at every moment, and `md_fini` reports the branches
that the client took. -/
theorem counters_conserved (hcounts : opts.basicCounts = true) {σ : Type}
    (xs : List (Execution opts nEvents σ)) :
    (Counters.after (runHelpers xs)).Balances ∧
      ((xs.map Execution.sideExits).sum < 2 ^ 64 →
        (∀ m, (Counters.after ((runHelpers xs).take m)).Coherent) ∧
        (Counters.after (runHelpers xs)).takenJccs.toNat =
          (xs.map Execution.clientTaken).sum) := by
  obtain ⟨hconserves, hentered⟩ := runHelpers_conserves hcounts xs
  have hcompleted := hconserves.completed
  have hexits := hconserves.exits
  have htaken := hconserves.taken
  constructor
  · apply Counters.balances_of_counted (Counters.counted_after _)
    omega
  · intro hfit
    constructor
    · intro m
      have hbound := hconserves.balanced m
      have hj := (List.take_sublist m (runHelpers xs)).count_le .addOneJcc
      have hi := (List.take_sublist m (runHelpers xs)).count_le .addOneInvertedJcc
      exact (Counters.coherent_of_counted (Counters.counted_after _) hbound.1 hbound.2
        (by omega)).1
    · have hbound := hconserves.balanced.whole
      rw [(Counters.coherent_of_counted (Counters.counted_after _) hbound.1 hbound.2
        (by omega)).2]
      omega

section Example

private def plainVex : Vex where
  sizeofIRType _ := 8
  typeOfIRExpr _ := .I64
  typeOfIRTemp _ := .I64
  fnnameIfEntry _ := none
  minInstrSzB := 1
  maxInstrSzB := 16
  clreqSzB := 19

private theorem main_ne : "main" ≠ "" := by
  decide

private def basicCounts : Options := ⟨true, "main", main_ne⟩

/-- A conditional branch. -/
private def branch : List (Option IRStmt) :=
  [some (.iMark 0x1000 2), some (.exit (.rdTmp 0) ⟨.I64, 0x2000⟩)]

/-- The branch with its calls. -/
private def branchOut : List OutStmt :=
  [.helper .addOneSBEntered, .helper (.traceSuperblock 0x1000), .helper .addOneIRStmt,
    .helper .addOneGuestInstr, .copied (.iMark 0x1000 2), .helper .addOneIRStmt,
    .helper .addOneJcc, .helper (.trace ⟨.Ir, mkIRExprHWord 0x1000, 2⟩),
    .copied (.exit (.rdTmp 0) ⟨.I64, 0x2000⟩), .helper .addOneJccUntaken,
    .helper .addOneSBCompleted]

private theorem branch_instrumented :
    mdInstrument basicCounts plainVex 1 0x1000 branch = .ok branchOut := rfl

/-- A guest whose state is the outcome of every condition. -/
private def outcome : Guest Bool where
  exec _ s := s
  taken _ s := s
  atom _ _ := 0
  frame _ _ _ _ _ := rfl
  noOp _ := rfl

private theorem branch_stays (s : Bool) :
    outcome.stays (preamble branch).reduceOption s = true := rfl

/-- An execution of the branch. -/
private def branching (taken : Bool) : Execution basicCounts 1 Bool where
  vex := plainVex
  base := 0x1000
  sbIn := branch
  out := branchOut
  instrumented := branch_instrumented
  guest := outcome
  state := taken
  inside := branch_stays taken

/-- A taken and an untaken branch. -/
theorem counters_conserved_branching :
    (Counters.after (runHelpers [branching true, branching false])).Balances ∧
      (([branching true, branching false].map Execution.sideExits).sum < 2 ^ 64 →
        (∀ m, (Counters.after
          ((runHelpers [branching true, branching false]).take m)).Coherent) ∧
        (Counters.after (runHelpers [branching true, branching false])).takenJccs.toNat =
          ([branching true, branching false].map Execution.clientTaken).sum) :=
  counters_conserved rfl [branching true, branching false]

private theorem count_branching {k : HelperCall} (n : Nat) :
    (runHelpers (List.replicate n (branching false) ++ [branching true])).count k =
      n * (branching false).calls.count k + (branching true).calls.count k := by
  simp [runHelpers, List.count_flatMap]

/-- When 2^64 branches have been executed, the last of them taken, their counter is back at
zero. -/
theorem counters_wrap :
    ¬ ∀ (opts : Options) (nEvents : Nat) (σ : Type) (xs : List (Execution opts nEvents σ)),
      opts.basicCounts = true →
        (Counters.after (runHelpers xs)).Balances ∧
        (∀ m, (Counters.after ((runHelpers xs).take m)).Coherent) ∧
        (Counters.after (runHelpers xs)).takenJccs.toNat =
          (xs.map Execution.clientTaken).sum := by
  intro h
  have hcoherent := (h basicCounts 1 Bool
    (List.replicate (2 ^ 64 - 1) (branching false) ++ [branching true]) rfl).2.1
      (runHelpers (List.replicate (2 ^ 64 - 1) (branching false) ++ [branching true])).length
  rw [List.take_length] at hcoherent
  have hcounted := Counters.counted_after
    (runHelpers (List.replicate (2 ^ 64 - 1) (branching false) ++ [branching true]))
  have hle := hcoherent.untaken_le
  rw [hcounted.jccs, hcounted.jccsUntaken, count_branching, count_branching] at hle
  exact absurd hle (by decide)

end Example

end Mema.Memadump
