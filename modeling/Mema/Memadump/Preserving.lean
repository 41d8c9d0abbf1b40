import Mema.Memadump.Details

/-!
# What the instrumentation accepts and preserves

`memagrind/memadump/md_main.c:667–775,812–1117`: a superblock is instrumented exactly when no null
statement precedes its first `IMark` and every statement behind that meets its assertions. The
inserted calls then leave the guest's own execution as it was.
-/

namespace Mema.Memadump

open Coalesce

variable {opts : Options} {vex : Vex} {nEvents : Nat}

/-! ### The assertions of a statement that was instrumented -/

theorem instrSizeOk_of_ok {sb sb' : SbOut} {iaddr : IRExpr} {isize : UInt32}
    (h : addEventIr vex nEvents sb iaddr isize = .ok sb') : instrSizeOk vex isize = true := by
  unfold addEventIr at h
  split at h
  · assumption
  · cases h

theorem accessOk_of_dr {sb sb' : SbOut} {daddr : IRExpr} {dsize : Int}
    (h : addEventDr nEvents sb daddr dsize = .ok sb') : accessOk daddr dsize = true := by
  unfold addEventDr at h
  split at h
  · assumption
  · cases h

theorem accessOk_of_dw {sb sb' : SbOut} {daddr : IRExpr} {dsize : Int}
    (h : addEventDw nEvents sb daddr dsize = .ok sb') : accessOk daddr dsize = true := by
  unfold addEventDw at h
  split at h
  · assumption
  · cases h

theorem countable_of_ok {sb sb' : SbOut} {op : Op} {type : IRType}
    (h : instrumentDetail sb op type = .ok sb') : countable type = true := by
  unfold instrumentDetail at h
  unfold countable
  cases htype : type2index type with
  | none =>
    rw [htype] at h
    cases h
  | some typeIx => rfl

/-- The result says that the statement meets its assertions. -/
abbrev Asserts (opts : Options) (vex : Vex) (iaddr : UInt64) (st : IRStmt)
    (r : Except Fault SbOut) : Prop := Yields r fun _ ↦ st.asserted opts vex iaddr = true

theorem instrumentWrTmp_asserts (sb : SbOut) (tmp : IRTemp) (data : IRExpr) (iaddr : UInt64) :
    Asserts opts vex iaddr (.wrTmp tmp data) (instrumentWrTmp vex nEvents sb tmp data) := by
  have hasserted (htype : ¬vex.typeOfIRExpr data = .INVALID)
      (haccess : ∀ ty addr, data = .load ty addr → accessOk addr (vex.sizeofIRType ty) = true)
      (hcount : data.countedOp.isNone = true ∨ countable (vex.typeOfIRExpr data) = true) :
      (IRStmt.wrTmp tmp data).asserted opts vex iaddr = true := by
    rw [← Bool.or_eq_true] at hcount
    cases data with
    | load ty addr => simp [IRStmt.asserted, haccess ty addr rfl, htype, hcount]
    | _ => simpa [IRStmt.asserted, htype] using hcount
  have hnone (hop : ∀ op, data.countedOp = some op → False) : data.countedOp.isNone = true :=
    Option.isNone_iff_eq_none.mpr (Option.eq_none_iff_forall_ne_some.mpr hop)
  unfold instrumentWrTmp
  dsimp only
  split
  · next ty addr =>
    apply Yields.bind
    intro sb₁ h₁
    have haccess : ∀ ty' addr', IRExpr.load ty addr = .load ty' addr' →
        accessOk addr' (vex.sizeofIRType ty') = true := by
      intro ty' addr' h
      cases h
      exact accessOk_of_dr h₁
    split
    · exact .error _
    · next htype =>
      split
      · apply Yields.bind
        intro sb₂ h₂
        exact .ok (hasserted htype haccess (Or.inr (countable_of_ok h₂)))
      · next hop => exact .ok (hasserted htype haccess (Or.inl (hnone hop)))
  · next hload =>
    have haccess : ∀ ty addr, data = .load ty addr → accessOk addr (vex.sizeofIRType ty) = true :=
      fun ty addr h ↦ absurd h (hload ty addr)
    split
    · exact .error _
    · next htype =>
      split
      · apply Yields.bind
        intro sb₂ h₂
        exact .ok (hasserted htype haccess (Or.inr (countable_of_ok h₂)))
      · next hop => exact .ok (hasserted htype haccess (Or.inl (hnone hop)))

theorem instrumentStore_asserts (sb : SbOut) (addr data : IRExpr) (iaddr : UInt64) :
    Asserts opts vex iaddr (.store addr data) (instrumentStore vex nEvents sb addr data) := by
  unfold instrumentStore
  apply Yields.bind
  intro sb₁ h₁
  dsimp only
  split
  · exact .error _
  · apply Yields.bind
    intro sb₂ h₂
    apply Yields.ok
    rw [IRStmt.asserted, accessOk_of_dw h₁, countable_of_ok h₂]
    rfl

theorem instrumentDirty_asserts (sb : SbOut) (d : IRDirty) (iaddr : UInt64) :
    Asserts opts vex iaddr (.dirty d) (instrumentDirty nEvents sb d) := by
  obtain ⟨cee, mFx, mAddr, mSize, tmp⟩ := d
  unfold instrumentDirty
  cases mAddr with
  | none =>
    cases mFx with
    | None =>
      dsimp only
      split
      · exact .error _
      · next hsize =>
        apply Yields.ok
        simpa [IRStmt.asserted] using hsize
    | _ => exact .error _
  | some addr =>
    cases mFx with
    | None => exact .error _
    | Read =>
      dsimp only
      split
      · exact .error _
      · rw [if_pos (Or.inl rfl)]
        apply Yields.bind
        intro sb₁ h₁
        rw [if_neg (by simp)]
        exact .ok (accessOk_of_dr h₁)
    | Write =>
      dsimp only
      split
      · exact .error _
      · rw [if_neg (by simp), if_pos (Or.inl rfl)]
        apply Yields.bind
        intro sb₁ h₁
        exact .ok (accessOk_of_dw h₁)
    | Modify =>
      dsimp only
      split
      · exact .error _
      · rw [if_pos (Or.inr rfl)]
        apply Yields.bind
        intro sb₁ h₁
        rw [if_pos (Or.inr rfl)]
        apply Yields.bind
        intro sb₂ _
        exact .ok (accessOk_of_dr h₁)

theorem instrumentCAS_asserts (sb : SbOut) (details : IRCAS) (iaddr : UInt64) :
    Asserts opts vex iaddr (.cas details) (instrumentCAS vex nEvents sb details) := by
  obtain ⟨oldHi, oldLo, addr, expdHi, expdLo, dataHi, dataLo⟩ := details
  unfold instrumentCAS
  cases addr with
  | none => exact .error _
  | some addr =>
    cases dataLo with
    | none => exact .error _
    | some dataLo =>
      dsimp only
      apply Yields.bind
      intro sb₁ h₁
      apply Yields.bind
      intro sb₂ _
      apply Yields.bind
      intro sb₃ h₃
      have hasserted : (IRStmt.cas ⟨oldHi, oldLo, some addr, expdHi, expdLo, dataHi,
          some dataLo⟩).asserted opts vex iaddr = true := by
        rw [IRStmt.asserted, accessOk_of_dr h₁, countable_of_ok h₃]
        rfl
      exact ⟨fun _ _ ↦ hasserted⟩

theorem instrumentLLSC_asserts (sb : SbOut) (result : IRTemp) (addr : IRExpr)
    (storedata : Option IRExpr) (iaddr : UInt64) :
    Asserts opts vex iaddr (.llsc result addr storedata)
      (instrumentLLSC vex nEvents sb result addr storedata) := by
  unfold instrumentLLSC
  cases storedata with
  | none =>
    apply Yields.bind
    intro sb₁ h₁
    apply Yields.bind
    intro sb₂ h₂
    apply Yields.ok
    rw [IRStmt.asserted, accessOk_of_dr h₁, countable_of_ok h₂]
    rfl
  | some data =>
    apply Yields.bind
    intro sb₁ h₁
    apply Yields.bind
    intro sb₂ h₂
    apply Yields.ok
    rw [IRStmt.asserted, accessOk_of_dw h₁, countable_of_ok h₂]
    rfl

theorem instrumentIMark_asserts (sb : SbOut) (addr : UInt64) (len : UInt32) (iaddr : UInt64) :
    Asserts opts vex iaddr (.iMark addr len) (instrumentIMark opts vex nEvents sb addr len) := by
  have hrest (sb : SbOut) : Asserts opts vex iaddr (.iMark addr len)
      (addEventIr vex nEvents sb (mkIRExprHWord addr) len >>= fun sb ↦
        pure (sb.addStmtToIRSB (.iMark addr len))) := by
    apply Yields.bind
    intro sb₁ h₁
    exact .ok (instrSizeOk_of_ok h₁)
  unfold instrumentIMark
  dsimp only
  split
  · split
    · exact .error _
    · split
      · exact hrest _
      · exact hrest _
  · exact hrest _

/-- Each case of the switch checks what it asserts. -/
theorem instrumentStmt_asserts (sb : SbOut) (st : IRStmt) :
    Asserts opts vex sb.iaddr st (instrumentStmt opts vex nEvents sb st) := by
  cases st with
  | iMark addr len => exact instrumentIMark_asserts sb addr len _
  | wrTmp tmp data => exact instrumentWrTmp_asserts sb tmp data _
  | store addr data => exact instrumentStore_asserts sb addr data _
  | dirty d => exact instrumentDirty_asserts sb d _
  | cas details => exact instrumentCAS_asserts sb details _
  | llsc result addr storedata => exact instrumentLLSC_asserts sb result addr storedata _
  | exit guard dst =>
    show Asserts opts vex sb.iaddr _ (instrumentExit opts sb guard dst)
    unfold instrumentExit
    split
    · exact .error _
    · next hiaddr =>
      apply Yields.ok
      cases hcounts : opts.basicCounts with
      | false => simp [IRStmt.asserted, hcounts]
      | true => simpa [IRStmt.asserted, hcounts] using hiaddr
  | noOp => exact .ok rfl
  | abiHint base len => exact .ok rfl
  | put offset data => exact .ok rfl
  | putI ix bias data => exact .ok rfl
  | mbe event => exact .ok rfl

/-! ### What is accepted -/

/-- The loop succeeds only on statements that meet their assertions; the buffer stays within its
array and exits compare with the last `IMark`'s address. -/
theorem asserted_of_instrumentStmts (hn : 0 < nEvents) {stmts : List (Option IRStmt)}
    {sb sb' : SbOut} (hb : sb.events.length ≤ nEvents)
    (h : instrumentStmts opts vex nEvents sb stmts = .ok sb') :
    Asserted opts vex sb.iaddr stmts.reduceOption := by
  induction stmts generalizing sb with
  | nil => trivial
  | cons st stmts ih =>
    cases st with
    | none => exact ih hb h
    | some st =>
      rw [List.reduceOption_cons_of_some]
      by_cases hst : st = .noOp
      · subst hst
        exact ⟨rfl, ih hb h⟩
      · obtain ⟨calls, hcount⟩ :=
          Held.count nEvents opts sb (rfl : HelperCall.addOneIRStmt.traced = none)
        have hb₁ := hcount.length_le hn hb
        rw [instrumentStmts_some hst] at h
        cases hr : instrumentStmt opts vex nEvents (sb.count opts .addOneIRStmt) st with
        | error e =>
          rw [hr] at h
          cases h
        | ok sb₁ =>
          rw [hr] at h
          have hasserted := (instrumentStmt_asserts _ st).holds sb₁ hr
          obtain ⟨sb₂, before, after, hsb₂, hi⟩ := instrumentStmt_spec hn hb₁ st hasserted
          rw [hr] at hsb₂
          cases hsb₂
          have hb₂ : sb₁.events.length ≤ nEvents := by
            rw [hi.events]
            exact length_pushes hn hb₁ _
          have hrest := ih hb₂ h
          rw [hi.iaddr] at hrest
          rw [hcount.iaddr] at hasserted hrest
          exact ⟨hasserted, hrest⟩

/-- The loop succeeds on such statements. -/
theorem instrumentStmts_of_asserted (hn : 0 < nEvents) {stmts : List (Option IRStmt)}
    {sb : SbOut} (hb : sb.events.length ≤ nEvents)
    (ha : Asserted opts vex sb.iaddr stmts.reduceOption) :
    ∃ sb', instrumentStmts opts vex nEvents sb stmts = .ok sb' := by
  induction stmts generalizing sb with
  | nil => exact ⟨sb, rfl⟩
  | cons st stmts ih =>
    cases st with
    | none => exact ih hb ha
    | some st =>
      rw [List.reduceOption_cons_of_some] at ha
      obtain ⟨hasserted, ha⟩ := ha
      by_cases hst : st = .noOp
      · subst hst
        exact ih hb ha
      · obtain ⟨calls, hcount⟩ :=
          Held.count nEvents opts sb (rfl : HelperCall.addOneIRStmt.traced = none)
        have hb₁ := hcount.length_le hn hb
        rw [← hcount.iaddr] at hasserted
        obtain ⟨sb₁, before, after, hsb₁, hi⟩ := instrumentStmt_spec hn hb₁ st hasserted
        rw [instrumentStmts_some hst, hsb₁]
        apply ih
        · rw [hi.events]
          exact length_pushes hn hb₁ _
        · rw [hi.iaddr, hcount.iaddr]
          exact ha

/-! ### The guest's execution -/

namespace Guest

variable {σ : Type} (g : Guest σ)

/-- Where statements leave the guest: its state, and the target of the exit that is taken. -/
def finish : List IRStmt → σ → σ × Option IRConst
  | [], s => (s, none)
  | .exit guard dst :: stmts, s =>
    if g.taken guard s then (s, some dst) else finish stmts (g.exec (.exit guard dst) s)
  | st :: stmts, s => finish stmts (g.exec st s)

/-- The same for an instrumented superblock. -/
def finishOut : List OutStmt → σ → σ × Option IRConst
  | [], s => (s, none)
  | .helper _ :: out, s => finishOut out s
  | .copied (.exit guard dst) :: out, s =>
    if g.taken guard s then (s, some dst) else finishOut out (g.exec (.exit guard dst) s)
  | .copied st :: out, s => finishOut out (g.exec st s)

/-- The helpers do not touch the guest. -/
theorem finishOut_eq (out : List OutStmt) (s : σ) :
    g.finishOut out s = g.finish (out.filterMap OutStmt.original) s := by
  induction out generalizing s with
  | nil => rfl
  | cons st out ih =>
    cases st with
    | helper call => exact ih s
    | copied st =>
      change _ = g.finish (st :: out.filterMap OutStmt.original) s
      cases st with
      | exit guard dst =>
        rw [finishOut, finish, ih]
      | _ => exact ih _

theorem finish_drop_noOp (stmts : List IRStmt) (s : σ) :
    g.finish (stmts.filter (· ≠ .noOp)) s = g.finish stmts s := by
  induction stmts generalizing s with
  | nil => rfl
  | cons st stmts ih =>
    cases st with
    | noOp =>
      rw [List.filter_cons_of_neg (by simp), ih]
      show _ = g.finish stmts (g.exec .noOp s)
      rw [g.noOp]
    | exit guard dst =>
      rw [List.filter_cons_of_pos (by simp), finish, finish, ih]
    | _ =>
      rw [List.filter_cons_of_pos (by simp)]
      exact ih _

/-- What follows may be replaced by what ends alike. -/
theorem finish_append_congr (stmts : List IRStmt) {rest rest' : List IRStmt}
    (h : ∀ s, g.finish rest s = g.finish rest' s) (s : σ) :
    g.finish (stmts ++ rest) s = g.finish (stmts ++ rest') s := by
  induction stmts generalizing s with
  | nil => exact h s
  | cons st stmts ih =>
    cases st with
    | exit guard dst =>
      rw [List.cons_append, List.cons_append, finish, finish, ih]
    | _ => exact ih _

end Guest

private theorem original_helpers (calls : List HelperCall) :
    (calls.map OutStmt.helper).filterMap OutStmt.original = [] := by
  rw [List.filterMap_map]
  exact List.filterMap_eq_nil_iff.mpr fun _ _ ↦ rfl

/-- The loop copies the statements in order, without the no-ops. -/
theorem instrumentStmts_copies {stmts : List (Option IRStmt)} {sb sb' : SbOut}
    (h : instrumentStmts opts vex nEvents sb stmts = .ok sb') :
    sb'.stmts.filterMap OutStmt.original =
      sb.stmts.filterMap OutStmt.original ++ stmts.reduceOption.filter (· ≠ .noOp) := by
  induction stmts generalizing sb with
  | nil =>
    cases h
    exact (List.append_nil _).symm
  | cons st stmts ih =>
    cases st with
    | none => exact ih h
    | some st =>
      rw [List.reduceOption_cons_of_some]
      by_cases hst : st = .noOp
      · subst hst
        exact ih h
      · rw [instrumentStmts_some hst] at h
        cases hr : instrumentStmt opts vex nEvents (sb.count opts .addOneIRStmt) st with
        | error e =>
          rw [hr] at h
          cases h
        | ok sb₁ =>
          rw [hr] at h
          obtain ⟨before, after, hcopied, -, -⟩ :=
            ((instrumentStmt_counts sb st).holds sb₁ hr).stmts
          have hone : OutStmt.original (.copied st) = some st := rfl
          rw [ih h, hcopied, List.filterMap_append, List.filterMap_append, original_helpers,
            List.filterMap_cons_some hone, original_helpers,
            List.filter_cons_of_pos (by simpa using hst), List.append_assoc]
          rfl

/-- An instrumented superblock without the inserted calls. -/
theorem mdInstrument_copies {base : UInt64} {sbIn : List (Option IRStmt)} {out : List OutStmt}
    (h : mdInstrument opts vex nEvents base sbIn = .ok out) :
    out.filterMap OutStmt.original =
      (preamble sbIn).reduceOption ++ (body sbIn).reduceOption.filter (· ≠ .noOp) := by
  obtain ⟨-, sb, hsb, rfl⟩ := mdInstrument_ok h
  have hpreamble : ((preamble sbIn).reduceOption.map OutStmt.copied).filterMap OutStmt.original =
      (preamble sbIn).reduceOption := by
    rw [List.filterMap_map]
    exact List.filterMap_some
  have hadd {sb sb' : SbOut} {items : List HelperCall} (h : Itemises sb items sb') :
      sb'.stmts.filterMap OutStmt.original = sb.stmts.filterMap OutStmt.original := by
    obtain ⟨calls, hstmts, -⟩ := h.stmts
    rw [hstmts, List.filterMap_append, original_helpers, List.append_nil]
  have hend := (Itemises.count opts sb .addOneSBCompleted).trans (.flush _)
  have hentry := (Itemises.count opts ⟨(preamble sbIn).reduceOption.map .copied, [], 0, 0⟩
    .addOneSBEntered).trans (.addCall _ (.traceSuperblock base))
  have hentered : (SbOut.entered opts base sbIn).stmts.filterMap OutStmt.original =
      (preamble sbIn).reduceOption := (hadd hentry).trans hpreamble
  rw [hadd hend, instrumentStmts_copies hsb, hentered]

/-- With room for an event, a superblock is instrumented exactly when no null statement precedes
its first `IMark` and the statements from there on meet their assertions. From every state the
result then leaves the guest in the state, and through the exit, that the superblock does. -/
theorem mdInstrument_preserves (hn : 0 < nEvents) (base : UInt64) (sbIn : List (Option IRStmt)) :
    ((∃ out, mdInstrument opts vex nEvents base sbIn = .ok out) ↔
      none ∉ preamble sbIn ∧ Asserted opts vex 0 (body sbIn).reduceOption) ∧
    ∀ out, mdInstrument opts vex nEvents base sbIn = .ok out →
      ∀ {σ : Type} (g : Guest σ) (s : σ), g.finishOut out s = g.finish sbIn.reduceOption s := by
  obtain ⟨calls, hheld⟩ := Held.entered nEvents opts base
    ⟨(preamble sbIn).reduceOption.map .copied, [], 0, 0⟩
  have hiaddr : (SbOut.entered opts base sbIn).iaddr = 0 := hheld.iaddr
  have hb : (SbOut.entered opts base sbIn).events.length ≤ nEvents := Nat.zero_le _
  constructor
  · constructor
    · rintro ⟨out, hout⟩
      obtain ⟨hnone, sb, hsb, -⟩ := mdInstrument_ok hout
      have ha := asserted_of_instrumentStmts hn hb hsb
      rw [hiaddr] at ha
      exact ⟨hnone, ha⟩
    · rintro ⟨hnone, ha⟩
      rw [← hiaddr] at ha
      obtain ⟨sb, hsb⟩ := instrumentStmts_of_asserted hn hb ha
      rw [mdInstrument_eq hnone, hsb]
      exact ⟨_, rfl⟩
  · intro out hout σ g s
    have hsplit : sbIn.reduceOption =
        (preamble sbIn).reduceOption ++ (body sbIn).reduceOption := by
      rw [← List.reduceOption_append, preamble, body, List.takeWhile_append_dropWhile]
    rw [g.finishOut_eq, mdInstrument_copies hout, hsplit]
    exact g.finish_append_congr _ (g.finish_drop_noOp _) s

section Example

private def words : Vex where
  sizeofIRType _ := 8
  typeOfIRExpr _ := .I64
  typeOfIRTemp _ := .I64
  fnnameIfEntry _ := none
  minInstrSzB := 1
  maxInstrSzB := 16
  clreqSzB := 19

private theorem exit_ne : "exit" ≠ "" := by
  decide

private def plain : Options := ⟨false, "exit", exit_ne⟩

/-- A copied word and a guarded exit. -/
private def copied : List (Option IRStmt) :=
  [some (.iMark 0x1000 4), none, some (.wrTmp 0 (.load .I64 (.const ⟨.I64, 64⟩))), some .noOp,
    some (.store (.const ⟨.I64, 72⟩) (.rdTmp 0)), some (.exit (.rdTmp 0) ⟨.I64, 0x2000⟩)]

/-- The copy with `N_EVENTS` events. -/
theorem mdInstrument_preserves_copied :
    ((∃ out, mdInstrument plain words 4 0x1000 copied = .ok out) ↔
      none ∉ preamble copied ∧ Asserted plain words 0 (body copied).reduceOption) ∧
    ∀ out, mdInstrument plain words 4 0x1000 copied = .ok out →
      ∀ {σ : Type} (g : Guest σ) (s : σ), g.finishOut out s = g.finish copied.reduceOption s :=
  mdInstrument_preserves (Nat.succ_pos 3) 0x1000 copied

end Example

end Mema.Memadump
