import Mema.Memadump.Counters

/-!
# Detailed counts

`memagrind/memadump/md_main.c:408–431,453–531,792–800,812–1080`: a statement's own calls, of the
counts of statements, guest instructions, function calls and operations by type, are all inserted
before its copy. What a run counts is then read off the statements it executes.
-/

namespace Mema.Memadump

/-! ### The counts of an operation by type -/

/-- `N_TYPES`. -/
def nTypes : Nat := 11

/-- `detailCounts`, by operation and type index. -/
def DetailCounts := Op → Nat → UInt64

namespace DetailCounts

/-- The loop of `md_post_clo_init`, `md_main.c:796–800`. -/
def zero : DetailCounts := fun _ _ ↦ 0

/-- `increment_detail`. -/
def incrementDetail (n : DetailCounts) (op : Op) (typeIx : Nat) : DetailCounts :=
  fun op' typeIx' ↦ if op' = op ∧ typeIx' = typeIx then n op typeIx + 1 else n op' typeIx'

/-- A helper call; the others leave the detailed counts alone. -/
def call (n : DetailCounts) : HelperCall → DetailCounts
  | .incrementDetail op typeIx => n.incrementDetail op typeIx
  | _ => n

theorem call_apply (n : DetailCounts) (c : HelperCall) (op : Op) (typeIx : Nat) :
    n.call c op typeIx = if c = .incrementDetail op typeIx then n op typeIx + 1
      else n op typeIx := by
  cases c with
  | incrementDetail op' typeIx' =>
    simp only [call, incrementDetail, HelperCall.incrementDetail.injEq]
    by_cases h : op' = op ∧ typeIx' = typeIx
    · obtain ⟨rfl, rfl⟩ := h
      rfl
    · rw [if_neg h, if_neg fun h' ↦ h ⟨h'.1.symm, h'.2.symm⟩]
  | _ => rfl

/-- A detailed count holds the number of its calls. -/
theorem after_apply (calls : List HelperCall) (n : DetailCounts) (op : Op) (typeIx : Nat) :
    calls.foldl call n op typeIx =
      n op typeIx + .ofNat (calls.count (.incrementDetail op typeIx)) := by
  induction calls generalizing n with
  | nil => exact (UInt64.add_zero _).symm
  | cons c calls ih =>
    rw [List.foldl_cons, ih, call_apply, List.count_cons]
    by_cases h : c = .incrementDetail op typeIx
    · rw [if_pos h, if_pos (beq_iff_eq.mpr h), UInt64.ofNat_add, UInt64.add_assoc,
        UInt64.add_comm 1]
      rfl
    · rw [if_neg h, if_neg (by rwa [beq_iff_eq])]
      rfl

end DetailCounts

/-- Types with the same index are the same. -/
theorem type2index_inj {type type' : IRType} {typeIx : Nat} (h : type2index type = some typeIx)
    (h' : type2index type' = some typeIx) : type = type' := by
  cases type <;> cases h <;> cases type' <;> first | rfl | cases h'

/-! ### What a statement counts -/

/-- The operations of a statement with the types that they are counted under. -/
def IRStmt.details (vex : Vex) : IRStmt → List (Op × IRType)
  | .wrTmp _ data => data.countedOp.toList.map fun op ↦ (op, vex.typeOfIRExpr data)
  | .store _ data => [(.OpStore, vex.typeOfIRExpr data)]
  | .cas ⟨_, _, _, _, _, none, some dataLo⟩ =>
    [(.OpLoad, vex.typeOfIRExpr dataLo), (.OpStore, vex.typeOfIRExpr dataLo)]
  | .cas ⟨_, _, _, _, _, some _, some dataLo⟩ =>
    [(.OpLoad, vex.typeOfIRExpr dataLo), (.OpLoad, vex.typeOfIRExpr dataLo),
      (.OpStore, vex.typeOfIRExpr dataLo), (.OpStore, vex.typeOfIRExpr dataLo)]
  | .llsc result _ none => [(.OpLoad, vex.typeOfIRTemp result)]
  | .llsc _ _ (some data) => [(.OpStore, vex.typeOfIRExpr data)]
  | _ => []

/-- Whether the statement starts an instruction where the counted function is entered. -/
def IRStmt.enters (opts : Options) (vex : Vex) : IRStmt → Bool
  | .iMark addr _ => vex.fnnameIfEntry addr == some opts.fnname
  | _ => false

/-- Whether a call counts something of its statement. -/
def HelperCall.itemised : HelperCall → Bool
  | .addOneIRStmt | .addOneGuestInstr | .addOneFuncCall | .incrementDetail _ _ => true
  | _ => false

/-- The itemised ones among calls. -/
def itemise (calls : List HelperCall) : List HelperCall := calls.filter HelperCall.itemised

@[simp] theorem itemise_append (calls calls' : List HelperCall) :
    itemise (calls ++ calls') = itemise calls ++ itemise calls' :=
  List.filter_append calls calls'

@[simp] theorem itemise_nil : itemise [] = [] := rfl

/-- The call that counts an operation. -/
def detailCall (detail : Op × IRType) : Option HelperCall :=
  (type2index detail.2).map (.incrementDetail detail.1)

/-- The itemised calls of a statement. -/
def IRStmt.itemised (opts : Options) (vex : Vex) (st : IRStmt) : List HelperCall :=
  (if opts.basicCounts then
    .addOneIRStmt :: if st.isIMark then
      .addOneGuestInstr :: if st.enters opts vex then [.addOneFuncCall] else []
    else []
  else []) ++ (st.details vex).filterMap detailCall

/-- From `sb` to `sb'` calls were inserted, the itemised ones among them as given. -/
structure Itemises (sb : SbOut) (items : List HelperCall) (sb' : SbOut) : Prop where
  stmts : ∃ calls, sb'.stmts = sb.stmts ++ calls.map .helper ∧ itemise calls = items

namespace Itemises

theorem refl (sb : SbOut) : Itemises sb [] sb := ⟨[], by simp, rfl⟩

theorem trans {sb sb₁ sb₂ : SbOut} {items items' : List HelperCall} (h : Itemises sb items sb₁)
    (h' : Itemises sb₁ items' sb₂) : Itemises sb (items ++ items') sb₂ := by
  obtain ⟨calls, hstmts, hcalls⟩ := h.stmts
  obtain ⟨calls', hstmts', hcalls'⟩ := h'.stmts
  refine ⟨calls ++ calls', ?_, ?_⟩
  · rw [hstmts', hstmts, List.map_append, List.append_assoc]
  · rw [itemise_append, hcalls, hcalls']

theorem addCall (sb : SbOut) (call : HelperCall) :
    Itemises sb (itemise [call]) (sb.addCall call) := ⟨[call], rfl, rfl⟩

theorem count (opts : Options) (sb : SbOut) (call : HelperCall) :
    Itemises sb (if opts.basicCounts then itemise [call] else []) (sb.count opts call) := by
  unfold SbOut.count
  split
  · exact .addCall sb call
  · exact .refl sb

theorem flush (sb : SbOut) : Itemises sb [] sb.flushEvents := by
  refine ⟨sb.events.map .trace, ?_, ?_⟩
  · simp [SbOut.flushEvents]
  · apply List.filter_eq_nil_iff.mpr
    intro call hcall
    obtain ⟨ev, _, rfl⟩ := List.mem_map.mp hcall
    exact Bool.false_ne_true

/-- Further calls, then the rest of a statement's instrumentation. -/
theorem bind {sb sb₁ : SbOut} {items items' : List HelperCall} {r : Except Fault SbOut}
    {k : SbOut → Except Fault SbOut} {P : SbOut → Prop} (h : Itemises sb items sb₁)
    (hr : Yields r (Itemises sb₁ items'))
    (hk : ∀ sb₂, Itemises sb (items ++ items') sb₂ → Yields (k sb₂) P) : Yields (r >>= k) P := by
  apply Yields.bind
  intro sb₂ hsb₂
  exact hk sb₂ (h.trans (hr.holds sb₂ hsb₂))

end Itemises

variable {opts : Options} {vex : Vex} {nEvents : Nat}

theorem appendEvent_itemises (sb : SbOut) (evt : Event) :
    Yields (sb.appendEvent nEvents evt) (Itemises sb []) := by
  have hflush : Itemises sb [] (if sb.events.length = nEvents then sb.flushEvents else sb) := by
    split
    · exact .flush sb
    · exact .refl sb
  unfold SbOut.appendEvent
  generalize (if sb.events.length = nEvents then sb.flushEvents else sb) = sb₁ at hflush ⊢
  dsimp only
  split
  · exact .ok ⟨hflush.stmts⟩
  · exact .error _

theorem addEventIr_itemises (sb : SbOut) (iaddr : IRExpr) (isize : UInt32) :
    Yields (addEventIr vex nEvents sb iaddr isize) (Itemises sb []) := by
  unfold addEventIr
  split
  · exact appendEvent_itemises sb _
  · exact .error _

theorem addEventDr_itemises (sb : SbOut) (daddr : IRExpr) (dsize : Int) :
    Yields (addEventDr nEvents sb daddr dsize) (Itemises sb []) := by
  unfold addEventDr
  split
  · exact appendEvent_itemises sb _
  · exact .error _

theorem addEventDw_itemises (sb : SbOut) (daddr : IRExpr) (dsize : Int) :
    Yields (addEventDw nEvents sb daddr dsize) (Itemises sb []) := by
  unfold addEventDw
  split
  · split
    · split
      · exact .ok ⟨(Itemises.refl sb).stmts⟩
      · exact appendEvent_itemises sb _
    · exact appendEvent_itemises sb _
  · exact .error _

theorem instrumentDetail_itemises (sb : SbOut) (op : Op) (type : IRType) :
    Yields (instrumentDetail sb op type) (Itemises sb (detailCall (op, type)).toList) := by
  unfold instrumentDetail detailCall
  cases type2index type with
  | none => exact .error _
  | some typeIx => exact .ok (.addCall sb (.incrementDetail op typeIx))

/-- From `sb` to `sb'` the statement was copied behind the itemised calls given; those behind
the copy are not itemised. -/
structure Counts (sb : SbOut) (items : List HelperCall) (st : IRStmt) (sb' : SbOut) : Prop where
  stmts : ∃ before after,
    sb'.stmts = sb.stmts ++ (before.map .helper ++ .copied st :: after.map .helper) ∧
      itemise before = items ∧ itemise after = []

theorem Itemises.copied {sb sb₁ sb' : SbOut} {items : List HelperCall} {st : IRStmt}
    (h : Itemises sb items sb₁) (h' : Itemises (sb₁.addStmtToIRSB st) [] sb') :
    Counts sb items st sb' := by
  obtain ⟨before, hstmts, hbefore⟩ := h.stmts
  obtain ⟨after, hstmts', hafter⟩ := h'.stmts
  refine ⟨before, after, ?_, hbefore, hafter⟩
  simp [hstmts', SbOut.addStmtToIRSB, hstmts]

theorem Itemises.copy {sb sb₁ : SbOut} {items items' : List HelperCall} {st : IRStmt}
    (h : Itemises sb items sb₁) (hitems : items = items') :
    Yields (.ok (sb₁.addStmtToIRSB st)) (Counts sb items' st) :=
  .ok (hitems ▸ h.copied (.refl _))

theorem instrumentWrTmp_counts (sb : SbOut) (tmp : IRTemp) (data : IRExpr) :
    Yields (instrumentWrTmp vex nEvents sb tmp data)
      (Counts sb (((IRStmt.wrTmp tmp data).details vex).filterMap detailCall)
        (.wrTmp tmp data)) := by
  have hcounted (sb₁ : SbOut) (h : Itemises sb [] sb₁) (op : Op)
      (hop : data.countedOp = some op) : Yields (do
        let sb ← instrumentDetail sb₁ op (vex.typeOfIRExpr data)
        pure (sb.addStmtToIRSB (.wrTmp tmp data)))
      (Counts sb (((IRStmt.wrTmp tmp data).details vex).filterMap detailCall)
        (.wrTmp tmp data)) := by
    apply h.bind (instrumentDetail_itemises sb₁ op _)
    intro sb₂ h₂
    apply h₂.copy
    rw [IRStmt.details, hop]
    cases hcall : detailCall (op, vex.typeOfIRExpr data) with
    | none => simp [hcall]
    | some call => simp [hcall]
  have hplain (sb₁ : SbOut) (h : Itemises sb [] sb₁) (hop : data.countedOp = none) :
      Yields (.ok (sb₁.addStmtToIRSB (.wrTmp tmp data)))
        (Counts sb (((IRStmt.wrTmp tmp data).details vex).filterMap detailCall)
          (.wrTmp tmp data)) := by
    apply h.copy
    rw [IRStmt.details, hop]
    rfl
  unfold instrumentWrTmp
  dsimp only
  split
  · apply (Itemises.refl sb).bind (addEventDr_itemises sb _ _)
    intro sb₁ h
    split
    · exact .error _
    · split
      · next op hop => exact hcounted sb₁ h op hop
      · next hop =>
        refine hplain sb₁ h ?_
        cases hc : IRExpr.countedOp _ with
        | none => rfl
        | some op => exact absurd hc (hop op)
  · split
    · exact .error _
    · split
      · next op hop => exact hcounted sb (.refl sb) op hop
      · next hop =>
        refine hplain sb (.refl sb) ?_
        cases hc : IRExpr.countedOp _ with
        | none => rfl
        | some op => exact absurd hc (hop op)

theorem instrumentStore_counts (sb : SbOut) (addr data : IRExpr) :
    Yields (instrumentStore vex nEvents sb addr data)
      (Counts sb (((IRStmt.store addr data).details vex).filterMap detailCall)
        (.store addr data)) := by
  unfold instrumentStore
  apply (Itemises.refl sb).bind (addEventDw_itemises sb _ _)
  intro sb₁ h
  dsimp only
  split
  · exact .error _
  · apply h.bind (instrumentDetail_itemises sb₁ .OpStore _)
    intro sb₂ h₂
    apply h₂.copy
    rw [IRStmt.details, List.filterMap_cons, List.filterMap_nil]
    cases detailCall (.OpStore, vex.typeOfIRExpr data) <;> rfl

theorem instrumentDirty_counts (sb : SbOut) (d : IRDirty) :
    Yields (instrumentDirty nEvents sb d) (Counts sb [] (.dirty d)) := by
  have hcopy (sb₁ : SbOut) (h : Itemises sb [] sb₁) :
      Yields (.ok (sb₁.addStmtToIRSB (.dirty d))) (Counts sb [] (.dirty d)) := h.copy rfl
  have hwrite (sb₁ : SbOut) (h : Itemises sb [] sb₁) (mFx : IREffect) (mAddr : IRExpr) :
      Yields (if mFx = .Write ∨ mFx = .Modify then do
          let sb ← addEventDw nEvents sb₁ mAddr d.mSize
          pure (sb.addStmtToIRSB (.dirty d))
        else pure (sb₁.addStmtToIRSB (.dirty d))) (Counts sb [] (.dirty d)) := by
    split
    · exact h.bind (addEventDw_itemises sb₁ _ _) hcopy
    · exact hcopy sb₁ h
  unfold instrumentDirty
  dsimp only
  split
  · split
    · exact .error _
    · exact hcopy sb (.refl sb)
  · exact .error _
  · exact .error _
  · split
    · exact .error _
    · split
      · apply (Itemises.refl sb).bind (addEventDr_itemises sb _ _)
        intro sb₁ h
        exact hwrite sb₁ h _ _
      · exact hwrite sb (.refl sb) _ _

theorem instrumentCAS_counts (sb : SbOut) (details : IRCAS) :
    Yields (instrumentCAS vex nEvents sb details)
      (Counts sb (((IRStmt.cas details).details vex).filterMap detailCall) (.cas details)) := by
  obtain ⟨oldHi, oldLo, addr, expdHi, expdLo, dataHi, dataLo⟩ := details
  unfold instrumentCAS
  cases addr with
  | none => exact .error _
  | some addr =>
    cases dataLo with
    | none => exact .error _
    | some dataLo =>
      dsimp only
      apply (Itemises.refl sb).bind (addEventDr_itemises sb _ _)
      intro sb h
      apply h.bind (addEventDw_itemises sb _ _)
      intro sb h
      apply h.bind (instrumentDetail_itemises sb .OpLoad _)
      intro sb h
      cases dataHi with
      | none =>
        apply h.bind (instrumentDetail_itemises sb .OpStore _)
        intro sb h
        apply h.copy
        simp only [IRStmt.details, List.filterMap_cons, List.filterMap_nil, List.nil_append]
        cases detailCall (.OpLoad, vex.typeOfIRExpr dataLo) <;>
          cases detailCall (.OpStore, vex.typeOfIRExpr dataLo) <;> rfl
      | some dataHi =>
        apply h.bind (instrumentDetail_itemises sb .OpLoad _)
        intro sb h
        apply h.bind (instrumentDetail_itemises sb .OpStore _)
        intro sb h
        apply h.bind (instrumentDetail_itemises sb .OpStore _)
        intro sb h
        apply h.copy
        simp only [IRStmt.details, List.filterMap_cons, List.filterMap_nil, List.nil_append]
        cases detailCall (.OpLoad, vex.typeOfIRExpr dataLo) <;>
          cases detailCall (.OpStore, vex.typeOfIRExpr dataLo) <;> rfl

theorem instrumentLLSC_counts (sb : SbOut) (result : IRTemp) (addr : IRExpr)
    (storedata : Option IRExpr) :
    Yields (instrumentLLSC vex nEvents sb result addr storedata)
      (Counts sb (((IRStmt.llsc result addr storedata).details vex).filterMap detailCall)
        (.llsc result addr storedata)) := by
  unfold instrumentLLSC
  cases storedata with
  | none =>
    apply (Itemises.refl sb).bind (addEventDr_itemises sb _ _)
    intro sb₁ h
    apply (h.trans (.flush sb₁)).bind (instrumentDetail_itemises _ .OpLoad _)
    intro sb₂ h₂
    apply h₂.copy
    rw [IRStmt.details, List.filterMap_cons, List.filterMap_nil]
    cases detailCall (.OpLoad, vex.typeOfIRTemp result) <;> rfl
  | some data =>
    apply (Itemises.refl sb).bind (addEventDw_itemises sb _ _)
    intro sb₁ h
    apply h.bind (instrumentDetail_itemises sb₁ .OpStore _)
    intro sb₂ h₂
    apply h₂.copy
    rw [IRStmt.details, List.filterMap_cons, List.filterMap_nil]
    cases detailCall (.OpStore, vex.typeOfIRExpr data) <;> rfl

theorem instrumentIMark_counts (sb : SbOut) (addr : UInt64) (len : UInt32) :
    Yields (instrumentIMark opts vex nEvents sb addr len)
      (Counts sb (if opts.basicCounts then
        .addOneGuestInstr :: if (IRStmt.iMark addr len).enters opts vex then [.addOneFuncCall]
          else []
        else []) (.iMark addr len)) := by
  have hrest (sb₁ : SbOut) {items items' : List HelperCall} (h : Itemises sb items sb₁)
      (hitems : items = items') : Yields (addEventIr vex nEvents sb₁ (mkIRExprHWord addr) len >>=
        fun sb ↦ pure (sb.addStmtToIRSB (.iMark addr len)))
      (Counts sb items' (.iMark addr len)) := by
    apply h.bind (addEventIr_itemises sb₁ _ _)
    intro sb₂ h₂
    exact h₂.copy (by rw [List.append_nil, hitems])
  have hguest : Itemises sb [.addOneGuestInstr]
      ({ sb with iaddr := addr, ilen := len }.addCall .addOneGuestInstr) :=
    ⟨[.addOneGuestInstr], rfl, rfl⟩
  unfold instrumentIMark
  cases opts.basicCounts with
  | false => exact hrest sb (.refl sb) rfl
  | true =>
    simp only [if_true, IRStmt.enters, beq_iff_eq]
    split
    · exact .error _
    · split
      · exact hrest _ (hguest.trans (.addCall _ .addOneFuncCall)) rfl
      · exact hrest _ hguest rfl

theorem instrumentExit_counts (sb : SbOut) (guard : IRExpr) (dst : IRConst) :
    Yields (instrumentExit opts sb guard dst) (Counts sb [] (.exit guard dst)) := by
  have hquiet (p : Prop) [Decidable p] (sb : SbOut) (call call' : HelperCall)
      (hc : itemise [call] = []) (hc' : itemise [call'] = []) :
      Itemises sb [] (sb.count opts (if p then call else call')) := by
    have hnone : itemise [if p then call else call'] = [] := by
      split
      · exact hc
      · exact hc'
    have hcount := Itemises.count opts sb (if p then call else call')
    rw [hnone, ite_self] at hcount
    exact hcount
  unfold instrumentExit
  split
  · exact .error _
  · apply Yields.ok
    let inverted := dst.value = sb.iaddr + sb.ilen.toUInt64
    apply ((hquiet inverted sb .addOneInvertedJcc .addOneJcc rfl rfl).trans (.flush _)).copied
    exact hquiet inverted _ .addOneInvertedJccUntaken .addOneJccUntaken rfl rfl

/-- Further calls before the statement's. -/
theorem Itemises.counts {sb sb₁ sb' : SbOut} {items items' : List HelperCall} {st : IRStmt}
    (h : Itemises sb items sb₁) (h' : Counts sb₁ items' st sb') :
    Counts sb (items ++ items') st sb' := by
  obtain ⟨calls, hstmts, hcalls⟩ := h.stmts
  obtain ⟨before, after, hstmts', hbefore, hafter⟩ := h'.stmts
  refine ⟨calls ++ before, after, ?_, ?_, hafter⟩
  · rw [hstmts', hstmts, List.map_append, List.append_assoc, List.append_assoc]
  · rw [itemise_append, hcalls, hbefore]

/-- A step of the loop, with the statement's count: its itemised calls stand before its copy. -/
theorem instrumentStmt_counts (sb : SbOut) (st : IRStmt) :
    Yields (instrumentStmt opts vex nEvents (sb.count opts .addOneIRStmt) st)
      (Counts sb (st.itemised opts vex) st) := by
  have hcount := Itemises.count opts sb .addOneIRStmt
  generalize sb.count opts .addOneIRStmt = sb₁ at hcount ⊢
  have hbehind {r : Except Fault SbOut} {items : List HelperCall}
      (hitems : (if opts.basicCounts then itemise [.addOneIRStmt] else []) ++ items =
        st.itemised opts vex) (hr : Yields r (Counts sb₁ items st)) :
      Yields r (Counts sb (st.itemised opts vex) st) :=
    ⟨fun sb' hsb' ↦ hitems ▸ hcount.counts (hr.holds sb' hsb')⟩
  have hcopy : Yields (.ok (sb₁.addStmtToIRSB st)) (Counts sb₁ [] st) :=
    (Itemises.refl sb₁).copy rfl
  cases st with
  | iMark addr len =>
    refine hbehind ?_ (instrumentIMark_counts sb₁ addr len)
    have hone : itemise [.addOneIRStmt] = [.addOneIRStmt] := rfl
    cases h : opts.basicCounts with
    | false => simp [IRStmt.itemised, h, IRStmt.details]
    | true => simp [IRStmt.itemised, h, IRStmt.details, IRStmt.isIMark, hone]
  | wrTmp tmp data => exact hbehind rfl (instrumentWrTmp_counts sb₁ tmp data)
  | store addr data => exact hbehind rfl (instrumentStore_counts sb₁ addr data)
  | dirty d => exact hbehind rfl (instrumentDirty_counts sb₁ d)
  | cas details => exact hbehind rfl (instrumentCAS_counts sb₁ details)
  | llsc result addr storedata =>
    exact hbehind rfl (instrumentLLSC_counts sb₁ result addr storedata)
  | exit guard dst => exact hbehind rfl (instrumentExit_counts sb₁ guard dst)
  | noOp => exact hbehind rfl hcopy
  | abiHint base len => exact hbehind rfl hcopy
  | put offset data => exact hbehind rfl hcopy
  | putI ix bias data => exact hbehind rfl hcopy
  | mbe event => exact hbehind rfl hcopy

/-! ### What an execution counts -/

namespace Guest

variable {σ : Type} (g : Guest σ)

/-- The statements that are executed from `s` on, the exit that leaves included. -/
def executed : List IRStmt → σ → List IRStmt
  | [], _ => []
  | st :: stmts, s => st :: if g.leaves st s then [] else executed stmts (g.exec st s)

end Guest

section Execution

variable {σ : Type}

/-- The statements of the superblock that an execution executes from the first `IMark` on,
without no-ops. -/
def Execution.executed (x : Execution opts nEvents σ) : List IRStmt :=
  (x.guest.executed (body x.sbIn).reduceOption
    (x.guest.execAll (preamble x.sbIn).reduceOption x.state)).filter (· ≠ .noOp)

/-- The trace helpers called when the execution runs. -/
def Execution.traced (x : Execution opts nEvents σ) : List TraceEvent := x.guest.trace x.out x.state

end Execution

theorem instrumentStmts_itemised {stmts : List (Option IRStmt)} {sb sb' : SbOut}
    (h : instrumentStmts opts vex nEvents sb stmts = .ok sb') :
    ∃ tail, sb'.stmts = sb.stmts ++ tail ∧ ∀ {σ : Type} (g : Guest σ) (s : σ)
      (final : List HelperCall), itemise final = [] →
        itemise (g.calls (tail ++ final.map .helper) s) =
          ((g.executed stmts.reduceOption s).filter (· ≠ .noOp)).flatMap
            (IRStmt.itemised opts vex) := by
  induction stmts generalizing sb with
  | nil =>
    cases h
    refine ⟨[], (List.append_nil _).symm, ?_⟩
    intro σ g s final hfinal
    have hcalls := g.calls_helpers final [] s
    rw [List.append_nil] at hcalls
    rw [List.nil_append, hcalls, itemise_append, hfinal]
    rfl
  | cons st stmts ih =>
    cases st with
    | none => exact ih h
    | some st =>
      rw [List.reduceOption_cons_of_some]
      by_cases hst : st = .noOp
      · subst hst
        obtain ⟨tail, hstmts, hcalls⟩ := ih h
        refine ⟨tail, hstmts, ?_⟩
        intro σ g s final hfinal
        rw [hcalls g s final hfinal, Guest.executed, g.noOp]
        rfl
      · rw [instrumentStmts_some hst] at h
        cases hr : instrumentStmt opts vex nEvents (sb.count opts .addOneIRStmt) st with
        | error e =>
          rw [hr] at h
          cases h
        | ok sb₁ =>
          rw [hr] at h
          obtain ⟨before, after, hcopied, hbefore, hafter⟩ :=
            ((instrumentStmt_counts sb st).holds sb₁ hr).stmts
          obtain ⟨tail, hstmts, hcalls⟩ := ih h
          refine ⟨before.map .helper ++ .copied st :: (after.map .helper ++ tail), ?_, ?_⟩
          · rw [hstmts, hcopied]
            simp
          · intro σ g s final hfinal
            have hrest := hcalls g (g.exec st s) final hfinal
            rw [List.append_assoc, List.cons_append, List.append_assoc, g.calls_copied,
              itemise_append, hbefore, Guest.executed, List.filter_cons_of_pos (by simpa using hst),
              List.flatMap_cons]
            congr 1
            split
            · rfl
            · rw [g.calls_helpers, itemise_append, hafter, hrest]
              rfl

/-- `sbOut` at the first `IMark`. -/
def SbOut.entered (opts : Options) (base : UInt64) (sbIn : List (Option IRStmt)) : SbOut :=
  { ((⟨(preamble sbIn).reduceOption.map .copied, [], 0, 0⟩ : SbOut).count opts
      .addOneSBEntered).addCall (.traceSuperblock base) with events := [] }

/-- An instrumented superblock is the preamble, what the loop adds, and the flushed end. -/
theorem mdInstrument_eq {base : UInt64} {sbIn : List (Option IRStmt)} (h : none ∉ preamble sbIn) :
    mdInstrument opts vex nEvents base sbIn =
      (instrumentStmts opts vex nEvents (.entered opts base sbIn) (body sbIn)).map fun sb ↦
        (sb.count opts .addOneSBCompleted).flushEvents.stmts := by
  rw [mdInstrument, copyPreamble_spec h]
  change (instrumentStmts opts vex nEvents (.entered opts base sbIn) (body sbIn) >>= fun sb ↦
    .ok (sb.count opts .addOneSBCompleted).flushEvents.stmts) = _
  cases instrumentStmts opts vex nEvents (.entered opts base sbIn) (body sbIn) <;> rfl

theorem mdInstrument_ok {base : UInt64} {sbIn : List (Option IRStmt)} {out : List OutStmt}
    (h : mdInstrument opts vex nEvents base sbIn = .ok out) :
    none ∉ preamble sbIn ∧ ∃ sb,
      instrumentStmts opts vex nEvents (.entered opts base sbIn) (body sbIn) = .ok sb ∧
        out = (sb.count opts .addOneSBCompleted).flushEvents.stmts := by
  have hnone : none ∉ preamble sbIn := by
    rw [mdInstrument] at h
    cases hpre : copyPreamble ⟨[], [], 0, 0⟩ sbIn with
    | error e =>
      rw [hpre] at h
      cases h
    | ok r => exact copyPreamble_none hpre
  rw [mdInstrument_eq hnone] at h
  cases hsb : instrumentStmts opts vex nEvents (.entered opts base sbIn) (body sbIn) with
  | error e =>
    rw [hsb] at h
    cases h
  | ok sb =>
    rw [hsb] at h
    exact ⟨hnone, sb, rfl, (Except.ok.inj h).symm⟩

/-- The itemised calls of an execution are those of the statements it executes. -/
theorem Execution.itemise_calls {σ : Type} (x : Execution opts nEvents σ) :
    itemise x.calls = x.executed.flatMap (IRStmt.itemised opts x.vex) := by
  obtain ⟨-, sb, hsb, hout⟩ := mdInstrument_ok x.instrumented
  obtain ⟨tail, hstmts, hcalls⟩ := instrumentStmts_itemised hsb
  have hquiet : (if opts.basicCounts then itemise [.addOneSBCompleted] else []) = [] := ite_self _
  have hend := (Itemises.count opts sb .addOneSBCompleted).trans (.flush _)
  rw [hquiet] at hend
  obtain ⟨final, hfinal, hnone⟩ := hend.stmts
  obtain ⟨entry, hentry, hsilent⟩ : ∃ entry : List HelperCall,
      (SbOut.entered opts x.base x.sbIn).stmts =
        (preamble x.sbIn).reduceOption.map .copied ++ entry.map .helper ∧ itemise entry = [] := by
    have hcount := Itemises.count opts ⟨(preamble x.sbIn).reduceOption.map .copied, [], 0, 0⟩
      .addOneSBEntered
    have hzero : (if opts.basicCounts then itemise [.addOneSBEntered] else []) = [] := ite_self _
    rw [hzero] at hcount
    exact (hcount.trans (.addCall _ (.traceSuperblock x.base))).stmts
  rw [Execution.calls, hout, hfinal, hstmts, hentry, List.append_assoc, List.append_assoc,
    x.guest.calls_preamble x.inside, x.guest.calls_helpers, itemise_append, hsilent,
    hcalls x.guest _ final hnone]
  rfl

/-! ### The counts of an execution -/

namespace Execution

variable {σ : Type} (x : Execution opts nEvents σ)

/-- Statements executed. -/
def irStmts : Nat := x.executed.length

/-- Guest instructions executed. -/
def guestInstrs : Nat := x.executed.countP IRStmt.isIMark

/-- Entries of the counted function. -/
def funcCalls : Nat := x.executed.countP (IRStmt.enters opts x.vex)

/-- Operations of a kind executed on operands of a type. -/
def operations (op : Op) (type : IRType) : Nat :=
  (x.executed.flatMap (IRStmt.details x.vex)).count (op, type)

/-- No exit is taken. -/
def completes : Bool :=
  x.guest.stays (body x.sbIn).reduceOption
    (x.guest.execAll (preamble x.sbIn).reduceOption x.state)

end Execution

theorem sum_map_indicator {α : Type} (p : α → Bool) (xs : List α) :
    (xs.map fun x ↦ if p x then 1 else 0).sum = xs.countP p := by
  induction xs with
  | nil => rfl
  | cons x xs ih => rw [List.map_cons, List.sum_cons, List.countP_cons, ih, Nat.add_comm]

/-- An itemised call is made as often as the executed statements' items say. -/
theorem Execution.count_calls {σ : Type} (x : Execution opts nEvents σ) {call : HelperCall}
    (hcall : call.itemised = true) {n : IRStmt → Nat}
    (hn : ∀ st, (st.itemised opts x.vex).count call = n st) :
    x.calls.count call = (x.executed.map n).sum := by
  have hcount : (itemise x.calls).count call = x.calls.count call := List.count_filter hcall
  rw [← hcount, x.itemise_calls, List.count_flatMap]
  congr 2
  funext st
  exact hn st

/-- No operation is counted by the calls of another. -/
theorem count_details {call : HelperCall} (h : ∀ op typeIx, call ≠ .incrementDetail op typeIx)
    (details : List (Op × IRType)) : (details.filterMap detailCall).count call = 0 := by
  apply List.count_eq_zero.mpr
  intro hmem
  obtain ⟨detail, -, hdetail⟩ := List.mem_filterMap.mp hmem
  obtain ⟨typeIx, -, rfl⟩ := Option.map_eq_some_iff.mp hdetail
  exact h _ _ rfl

theorem detailCall_eq_iff {op : Op} {type : IRType} {typeIx : Nat}
    (htype : type2index type = some typeIx) (detail : Op × IRType) :
    detailCall detail = some (.incrementDetail op typeIx) ↔ detail = (op, type) := by
  obtain ⟨op', type'⟩ := detail
  rw [detailCall, Option.map_eq_some_iff, Prod.mk.injEq]
  constructor
  · rintro ⟨typeIx', htype', hcall⟩
    cases hcall
    exact ⟨rfl, type2index_inj htype' htype⟩
  · rintro ⟨rfl, rfl⟩
    exact ⟨typeIx, htype, rfl⟩

namespace Execution

variable {σ : Type} (x : Execution opts nEvents σ)

theorem count_irStmt (hcounts : opts.basicCounts = true) :
    x.calls.count .addOneIRStmt = x.irStmts := by
  have hone : ∀ st, (IRStmt.itemised opts x.vex st).count .addOneIRStmt =
      if (fun _ ↦ true) st then 1 else 0 := by
    intro st
    rw [IRStmt.itemised, List.count_append, count_details (by intro _ _ h; cases h), if_pos hcounts,
      List.count_cons_self, Nat.add_zero, if_pos rfl, Nat.add_eq_right]
    split
    · rw [List.count_cons_of_ne (by decide)]
      split
      · rfl
      · rfl
    · rfl
  rw [x.count_calls rfl hone, sum_map_indicator (fun _ ↦ true), List.countP_true, irStmts]

theorem count_guestInstr (hcounts : opts.basicCounts = true) :
    x.calls.count .addOneGuestInstr = x.guestInstrs := by
  have hmark : ∀ st, (IRStmt.itemised opts x.vex st).count .addOneGuestInstr =
      if st.isIMark then 1 else 0 := by
    intro st
    rw [IRStmt.itemised, List.count_append, count_details (by intro _ _ h; cases h), if_pos hcounts,
      List.count_cons_of_ne (by decide), Nat.add_zero]
    split
    · rw [List.count_cons_self]
      split
      · rfl
      · rfl
    · rfl
  rw [x.count_calls rfl hmark, sum_map_indicator, guestInstrs]

theorem count_funcCall (hcounts : opts.basicCounts = true) :
    x.calls.count .addOneFuncCall = x.funcCalls := by
  have henters : ∀ st, (IRStmt.itemised opts x.vex st).count .addOneFuncCall =
      if st.enters opts x.vex then 1 else 0 := by
    intro st
    rw [IRStmt.itemised, List.count_append, count_details (by intro _ _ h; cases h), if_pos hcounts,
      List.count_cons_of_ne (by decide), Nat.add_zero]
    cases st with
    | iMark addr len =>
      rw [IRStmt.isIMark, if_pos rfl, List.count_cons_of_ne (by decide)]
      split
      · rfl
      · rfl
    | _ => rfl
  rw [x.count_calls rfl henters, sum_map_indicator, funcCalls]

theorem count_detail (op : Op) {type : IRType} {typeIx : Nat}
    (htype : type2index type = some typeIx) :
    x.calls.count (.incrementDetail op typeIx) = x.operations op type := by
  have hdetail : ∀ st, (IRStmt.itemised opts x.vex st).count (.incrementDetail op typeIx) =
      (st.details x.vex).count (op, type) := by
    intro st
    have hbasic : (if opts.basicCounts then
        .addOneIRStmt :: if st.isIMark then
          .addOneGuestInstr :: if st.enters opts x.vex then [.addOneFuncCall] else []
        else []
      else [] : List HelperCall).count (.incrementDetail op typeIx) = 0 := by
      apply List.count_eq_zero.mpr
      split
      · split
        · split <;> simp
        · simp
      · simp
    rw [IRStmt.itemised, List.count_append, hbasic, Nat.zero_add, List.count_filterMap, List.count]
    congr 1
    funext detail
    rw [Bool.eq_iff_iff, beq_iff_eq, beq_iff_eq, detailCall_eq_iff htype]
  rw [x.count_calls rfl hdetail, operations, List.count_flatMap]
  rfl

/-- An execution is counted as completed when no exit is taken. -/
theorem count_completed (hcounts : opts.basicCounts = true) :
    x.calls.count .addOneSBCompleted = if x.completes then 1 else 0 := by
  have hbranches (mark : UInt64) (stmts : List IRStmt) (s : σ) :
      (x.guest.branches [.addOneSBCompleted] mark stmts s).count .addOneSBCompleted =
        if x.guest.stays stmts s then 1 else 0 := by
    induction stmts generalizing mark s with
    | nil => rfl
    | cons st stmts ih =>
      have hbefore : (st.tallyBefore mark).count .addOneSBCompleted = 0 := by
        cases st with
        | exit guard dst =>
          show [exitCall mark dst].count _ = 0
          unfold exitCall
          split
          · rfl
          · rfl
        | _ => rfl
      have hafter : (st.tallyAfter mark).count .addOneSBCompleted = 0 := by
        cases st with
        | exit guard dst =>
          show [untakenCall mark dst].count _ = 0
          unfold untakenCall
          split
          · rfl
          · rfl
        | _ => rfl
      rw [Guest.branches_cons, List.count_append, hbefore, Nat.zero_add, Guest.stays]
      cases x.guest.leaves st s with
      | true => rfl
      | false => simp [hafter, ih]
  obtain ⟨mark, hcalls⟩ := x.tally_calls hcounts
  rw [← count_tally rfl, hcalls, List.count_cons_of_ne (by decide), hbranches]
  rfl

theorem guestInstrs_le : x.guestInstrs ≤ x.irStmts := List.countP_le_length

theorem funcCalls_le : x.funcCalls ≤ x.irStmts := List.countP_le_length

theorem sideExits_le : x.sideExits ≤ x.irStmts := by
  have hexits (stmts : List IRStmt) (s : σ) : x.guest.sideExits stmts s ≤
      ((x.guest.executed stmts s).filter (· ≠ .noOp)).length := by
    induction stmts generalizing s with
    | nil => exact Nat.le_refl 0
    | cons st stmts ih =>
      rw [Guest.executed]
      cases st with
      | exit guard dst =>
        rw [Guest.sideExits, List.filter_cons_of_pos (by simp), List.length_cons, Nat.add_comm]
        apply Nat.succ_le_succ
        rw [Guest.leaves]
        split
        · exact Nat.zero_le _
        · exact ih _
      | noOp => exact ih _
      | _ => exact Nat.le_succ_of_le (ih _)
  exact hexits _ _

/-- A statement makes at most two operations of a kind. -/
theorem operations_le (op : Op) (type : IRType) : x.operations op type ≤ 2 * x.irStmts := by
  have htwo (st : IRStmt) : (st.details x.vex).count (op, type) ≤ 2 := by
    have hlength {details : List (Op × IRType)} (h : details.length ≤ 2) :
        details.count (op, type) ≤ 2 := List.count_le_length.trans h
    cases st with
    | wrTmp tmp data =>
      apply hlength
      rw [IRStmt.details, List.length_map]
      exact (Option.length_toList_le).trans (by decide)
    | store addr data => exact hlength (Nat.le_succ 1)
    | cas details =>
      obtain ⟨oldHi, oldLo, addr, expdHi, expdLo, dataHi, dataLo⟩ := details
      cases dataLo with
      | none => cases dataHi <;> exact Nat.zero_le 2
      | some dataLo =>
        cases dataHi with
        | none => exact hlength (Nat.le_refl 2)
        | some dataHi =>
          rw [IRStmt.details]
          cases op <;> simp [List.count_cons]
          all_goals
            split
            · decide
            · decide
    | llsc result addr storedata => cases storedata <;> exact hlength (Nat.le_succ 1)
    | _ => exact Nat.zero_le 2
  rw [operations, List.count_flatMap, irStmts]
  induction x.executed with
  | nil => exact Nat.le_refl 0
  | cons st sts ih =>
    have hst := htwo st
    rw [List.map_cons, List.sum_cons, List.length_cons]
    dsimp only [Function.comp]
    omega

end Execution

/-! ### The counts of a run -/

section Runs

variable {σ : Type}

/-- The sum of an execution's counts over a run. -/
def total (n : Execution opts nEvents σ → Nat) (xs : List (Execution opts nEvents σ)) : Nat :=
  (xs.map n).sum

theorem count_runHelpers {call : HelperCall} {n : Execution opts nEvents σ → Nat}
    (h : ∀ x : Execution opts nEvents σ, x.calls.count call = n x)
    (xs : List (Execution opts nEvents σ)) : (runHelpers xs).count call = total n xs := by
  rw [runHelpers, List.count_flatMap, total]
  congr 2
  funext x
  exact h x

theorem total_le {n m : Execution opts nEvents σ → Nat} {c : Nat} (h : ∀ x, n x ≤ c * m x)
    (xs : List (Execution opts nEvents σ)) : total n xs ≤ c * total m xs := by
  induction xs with
  | nil => exact Nat.le_refl _
  | cons x xs ih =>
    have hx := h x
    rw [total, total] at *
    simp only [List.map_cons, List.sum_cons, Nat.mul_add]
    omega

end Runs

end Mema.Memadump
