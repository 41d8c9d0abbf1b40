import Mema.Memadump.Preserving
import Mema.Memadump.Report

/-!
# The trace and the counts agree

`memagrind/memadump/md_main.c:667–775,826–1117`: each access of an executed statement is traced,
alone or in a modify, and each operation is counted. What the trace holds is therefore what the
report says, but for two kinds of statements: a doubleword compare-and-swap is traced as one read
and one write and counted as two, and a dirty helper's accesses are traced and not counted.
-/

namespace Mema.Memadump

open Coalesce Chunks

/-! ### What traced events weigh -/

/-- Fetches, reads and writes that an event stands for. -/
structure Accesses where
  fetches : Nat
  reads : Nat
  writes : Nat
  deriving DecidableEq, Repr

/-- The accesses of an event; a modify is a read and a write. -/
def EventKind.accesses : EventKind → Accesses
  | .Ir => ⟨1, 0, 0⟩
  | .Dr => ⟨0, 1, 0⟩
  | .Dw => ⟨0, 0, 1⟩
  | .Dm => ⟨0, 1, 1⟩

/-- A number read off an event's kind, which a modify has as its read and its write do. -/
structure Additive (w : EventKind → Nat) : Prop where
  modify : w .Dm = w .Dr + w .Dw

theorem Additive.merge {w : EventKind → Nat} (hw : Additive w) {e f g : Event}
    (h : e.merge f = some g) : w g.ekind = w e.ekind + w f.ekind := by
  obtain ⟨he, hf, rfl⟩ := Event.merge_eq_some h
  rw [he, hf]
  exact hw.modify

/-- What the traced calls weigh. -/
def weigh (w : EventKind → Nat) (calls : List HelperCall) : Nat :=
  ((calls.filterMap HelperCall.traced).map fun ev ↦ w ev.ekind).sum

@[simp] theorem weigh_append (w : EventKind → Nat) (calls calls' : List HelperCall) :
    weigh w (calls ++ calls') = weigh w calls + weigh w calls' := by
  rw [weigh, List.filterMap_append, List.map_append, List.sum_append]
  rfl

/-- What a statement's events weigh. -/
def IRStmt.weight (vex : Vex) (w : EventKind → Nat) (st : IRStmt) : Nat :=
  ((st.items vex).map (Item.weight fun ev ↦ w ev.ekind)).sum

variable {opts : Options} {vex : Vex} {nEvents : Nat}

/-- An exit's barrier empties the buffer. -/
private theorem kept_of_leaves {σ : Type} {g : Guest σ} {st : IRStmt} {s : σ}
    (h : g.leaves st s = true) (events : List Event) :
    (pushes Event.merge nEvents events (st.items vex)).2 = [] := by
  cases st with
  | exit guard dst => rfl
  | _ => cases h

/-- Run before the calls for the events still held, the loop's output traces what the buffer held
and what the executed statements add. -/
theorem instrumentStmts_weight {w : EventKind → Nat} (hw : Additive w) (hn : 0 < nEvents)
    {stmts : List (Option IRStmt)} {sb sb' : SbOut} (hb : sb.events.length ≤ nEvents)
    (h : instrumentStmts opts vex nEvents sb stmts = .ok sb') :
    ∃ tail, sb'.stmts = sb.stmts ++ tail ∧ ∀ {σ : Type} (g : Guest σ) (s : σ)
      (final : List HelperCall), final.filterMap HelperCall.traced = sb'.events →
        weigh w (g.calls (tail ++ final.map .helper) s) =
          (sb.events.map fun ev ↦ w ev.ekind).sum +
            ((g.executed stmts.reduceOption s).map (IRStmt.weight vex w)).sum := by
  induction stmts generalizing sb with
  | nil =>
    cases h
    refine ⟨[], (List.append_nil _).symm, ?_⟩
    intro σ g s final hfinal
    have hcalls := g.calls_helpers final [] s
    rw [List.append_nil] at hcalls
    rw [List.nil_append, hcalls, weigh_append, weigh, hfinal]
    rfl
  | cons st stmts ih =>
    cases st with
    | none => exact ih hb h
    | some st =>
      rw [List.reduceOption_cons_of_some]
      by_cases hst : st = .noOp
      · subst hst
        obtain ⟨tail, hstmts, hcalls⟩ := ih hb h
        refine ⟨tail, hstmts, ?_⟩
        intro σ g s final hfinal
        have hzero : IRStmt.noOp.weight vex w = 0 := rfl
        rw [hcalls g s final hfinal, Guest.executed, g.noOp, List.map_cons, List.sum_cons, hzero,
          Nat.zero_add]
        rfl
      · obtain ⟨calls, hcount⟩ :=
          Held.count nEvents opts sb (rfl : HelperCall.addOneIRStmt.traced = none)
        have hb₁ := hcount.length_le hn hb
        rw [instrumentStmts_some hst] at h
        cases hr : instrumentStmt opts vex nEvents (sb.count opts .addOneIRStmt) st with
        | error e =>
          rw [hr] at h
          cases h
        | ok sb₁ =>
          rw [hr] at h
          have hasserted := (instrumentStmt_asserts _ st).holds sb₁ hr
          obtain ⟨sb₂, before, after, hsb₂, hi⟩ := instrumentStmt_spec hn hb₁ st hasserted
          rw [hr] at hsb₂
          cases hsb₂
          have hb₂ : sb₁.events.length ≤ nEvents := by
            rw [hi.events]
            exact length_pushes hn hb₁ _
          obtain ⟨tail, hstmts, hcalls⟩ := ih hb₂ h
          refine ⟨(calls ++ before).map .helper ++
            .copied st :: (after.map .helper ++ tail), ?_, ?_⟩
          · rw [hstmts, hi.stmts, hcount.stmts]
            simp
          · intro σ g s final hfinal
            have hrest := hcalls g (g.exec st s) final hfinal
            have hevents : (sb.count opts .addOneIRStmt).events = sb.events := hcount.events
            have htraced := hi.traced
            have hkept := hi.events
            rw [hevents] at htraced hkept
            have hsilent : weigh w calls = 0 := by
              rw [weigh, hcount.traced]
              rfl
            have hafter : weigh w after = 0 := by
              rw [weigh, hi.silent]
              rfl
            have hpush : weigh w before + (sb₁.events.map fun ev ↦ w ev.ekind).sum =
                (sb.events.map fun ev ↦ w ev.ekind).sum + st.weight vex w := by
              rw [weigh, htraced, hkept]
              exact pushes_weight (fun h ↦ hw.merge h) nEvents sb.events (st.items vex)
            rw [List.append_assoc, List.cons_append, List.append_assoc, g.calls_copied,
              weigh_append, weigh_append, hsilent, Guest.executed, List.map_cons,
              List.sum_cons]
            cases hleaves : g.leaves st s with
            | true =>
              rw [hkept, kept_of_leaves hleaves, List.map_nil, List.sum_nil] at hpush
              have hnil : weigh w [] = 0 := rfl
              rw [if_pos rfl, if_pos rfl, hnil, List.map_nil, List.sum_nil]
              omega
            | false =>
              simp only [Bool.false_eq_true, if_false]
              rw [g.calls_helpers, weigh_append, hafter, hrest]
              omega

/-- Traced calls keep the kinds of their events. -/
theorem Guest.sum_trace {σ : Type} (g : Guest σ) (w : EventKind → Nat) (out : List OutStmt)
    (s : σ) : ((g.trace out s).map fun e ↦ w e.kind).sum = weigh w (g.calls out s) := by
  induction out generalizing s with
  | nil => rfl
  | cons st out ih =>
    cases st with
    | helper call =>
      rw [Guest.trace, Guest.calls, List.map_append, List.sum_append, ih, ← List.singleton_append,
        weigh_append]
      congr 1
      cases htraced : call.traced with
      | none => simp [weigh, htraced]
      | some ev => simp [weigh, htraced, called, Guest.value]
    | copied st =>
      rw [Guest.trace, Guest.calls]
      split
      · rfl
      · exact ih _

/-- An execution traces what its executed statements weigh. -/
theorem Execution.sum_traced {w : EventKind → Nat} (hw : Additive w) (hn : 0 < nEvents)
    {σ : Type} (x : Execution opts nEvents σ) :
    (x.traced.map fun e ↦ w e.kind).sum = (x.executed.map (IRStmt.weight x.vex w)).sum := by
  obtain ⟨-, sb, hsb, hout⟩ := mdInstrument_ok x.instrumented
  have hempty : (SbOut.entered opts x.base x.sbIn).events.length ≤ nEvents := Nat.zero_le _
  obtain ⟨tail, hstmts, htail⟩ := instrumentStmts_weight hw hn hempty hsb
  obtain ⟨entry, hentry⟩ := Held.entered nEvents opts x.base
    ⟨(preamble x.sbIn).reduceOption.map .copied, [], 0, 0⟩
  obtain ⟨final, hfinal⟩ := Held.completed nEvents opts sb
  have hsplit : x.out = (preamble x.sbIn).reduceOption.map .copied ++
      (entry.map .helper ++ (tail ++ final.map .helper)) := by
    have hentered : (SbOut.entered opts x.base x.sbIn).stmts =
        (preamble x.sbIn).reduceOption.map .copied ++ entry.map .helper := hentry.stmts
    rw [hout, hfinal.stmts, hstmts, hentered, List.append_assoc, List.append_assoc]
  have htraced : final.filterMap HelperCall.traced = sb.events := by
    rw [hfinal.traced]
    exact List.append_nil _
  have hsilent : weigh w entry = 0 := by
    rw [weigh, hentry.traced]
    rfl
  have hnoOps (sts : List IRStmt) : ((sts.filter (· ≠ .noOp)).map (IRStmt.weight x.vex w)).sum =
      (sts.map (IRStmt.weight x.vex w)).sum := by
    induction sts with
    | nil => rfl
    | cons st sts ih =>
      by_cases hst : st = .noOp
      · have hzero : st.weight x.vex w = 0 := by
          rw [hst]
          rfl
        rw [List.filter_cons_of_neg (by simpa using hst), ih, List.map_cons, List.sum_cons, hzero,
          Nat.zero_add]
      · rw [List.filter_cons_of_pos (by simpa using hst), List.map_cons, List.sum_cons, ih,
          List.map_cons, List.sum_cons]
  rw [Execution.traced, x.guest.sum_trace, hsplit, x.guest.calls_preamble x.inside,
    x.guest.calls_helpers, weigh_append, hsilent, htail x.guest _ final htraced, Execution.executed,
    hnoOps, Nat.zero_add]
  exact Nat.zero_add _

/-! ### Operations against accesses -/

/-- The statement is a doubleword compare-and-swap. -/
def IRStmt.isDCAS : IRStmt → Bool
  | .cas details => details.dataHi.isSome
  | _ => false

/-- The statement's dirty helper reads memory. -/
def IRStmt.dirtyReads : IRStmt → Bool
  | .dirty d => d.mFx == .Read || d.mFx == .Modify
  | _ => false

/-- The statement's dirty helper writes memory. -/
def IRStmt.dirtyWrites : IRStmt → Bool
  | .dirty d => d.mFx == .Write || d.mFx == .Modify
  | _ => false

/-- Operations of a kind. -/
def IRStmt.operations (vex : Vex) (op : Op) (st : IRStmt) : Nat :=
  (st.details vex).countP fun detail ↦ detail.1 = op

/-- A statement that meets its assertions is traced as it is counted, but for the doubleword
compare-and-swaps and the dirty helpers. -/
theorem IRStmt.weight_accesses {iaddr : UInt64} {st : IRStmt}
    (ha : st.asserted opts vex iaddr = true) :
    st.weight vex (fun k ↦ k.accesses.fetches) = (if st.isIMark then 1 else 0) ∧
    st.weight vex (fun k ↦ k.accesses.reads) + (if st.isDCAS then 1 else 0) =
      st.operations vex .OpLoad + (if st.dirtyReads then 1 else 0) ∧
    st.weight vex (fun k ↦ k.accesses.writes) + (if st.isDCAS then 1 else 0) =
      st.operations vex .OpStore + (if st.dirtyWrites then 1 else 0) := by
  cases st with
  | wrTmp tmp data =>
    cases data with
    | _ => exact ⟨rfl, rfl, rfl⟩
  | dirty d =>
    obtain ⟨cee, mFx, mAddr, mSize, tmp⟩ := d
    cases mAddr with
    | none =>
      cases mFx with
      | None => exact ⟨rfl, rfl, rfl⟩
      | _ => cases ha
    | some addr =>
      cases mFx with
      | None => cases ha
      | _ => exact ⟨rfl, rfl, rfl⟩
  | cas details =>
    obtain ⟨oldHi, oldLo, addr, expdHi, expdLo, dataHi, dataLo⟩ := details
    cases addr with
    | none => cases ha
    | some addr =>
      cases dataLo with
      | none => cases ha
      | some dataLo =>
        cases dataHi with
        | none => exact ⟨rfl, rfl, rfl⟩
        | some dataHi => exact ⟨rfl, rfl, rfl⟩
  | llsc result addr storedata =>
    cases storedata with
    | none => exact ⟨rfl, rfl, rfl⟩
    | some data => exact ⟨rfl, rfl, rfl⟩
  | _ => exact ⟨rfl, rfl, rfl⟩

/-- Operations of statements that meet their assertions have types with an index. -/
theorem IRStmt.countable_of_asserted {iaddr : UInt64} {st : IRStmt}
    (ha : st.asserted opts vex iaddr = true) : ∀ detail ∈ st.details vex,
      countable detail.2 = true := by
  cases st with
  | wrTmp tmp data =>
    simp only [IRStmt.asserted, Bool.and_eq_true, Bool.or_eq_true] at ha
    intro detail hdetail
    obtain ⟨op, hop, rfl⟩ := List.mem_map.mp hdetail
    rw [Option.mem_toList] at hop
    rcases ha.2 with hnone | hcount
    · rw [hop] at hnone
      cases hnone
    · exact hcount
  | store addr data =>
    simp only [IRStmt.asserted, Bool.and_eq_true] at ha
    simpa [IRStmt.details] using ha.2
  | cas details =>
    obtain ⟨oldHi, oldLo, addr, expdHi, expdLo, dataHi, dataLo⟩ := details
    cases addr with
    | none => cases ha
    | some addr =>
      cases dataLo with
      | none => cases ha
      | some dataLo =>
        simp only [IRStmt.asserted, Bool.and_eq_true] at ha
        cases dataHi with
        | none => simpa [IRStmt.details] using ha.2
        | some dataHi => simpa [IRStmt.details] using ha.2
  | llsc result addr storedata =>
    cases storedata with
    | none =>
      simp only [IRStmt.asserted, Bool.and_eq_true] at ha
      simpa [IRStmt.details] using ha.2
    | some data =>
      simp only [IRStmt.asserted, Bool.and_eq_true] at ha
      simpa [IRStmt.details] using ha.2
  | _ => exact fun detail hdetail ↦ absurd hdetail List.not_mem_nil

/-- The statements that an execution executes met their assertions. -/
theorem Execution.asserted {σ : Type} (hn : 0 < nEvents) (x : Execution opts nEvents σ) :
    ∀ st ∈ x.executed, ∃ iaddr, st.asserted opts x.vex iaddr = true := by
  obtain ⟨-, sb, hsb, -⟩ := mdInstrument_ok x.instrumented
  have hempty : (SbOut.entered opts x.base x.sbIn).events.length ≤ nEvents := Nat.zero_le _
  have ha := asserted_of_instrumentStmts hn hempty hsb
  have hexecuted (stmts : List IRStmt) (s : σ) : ∀ st ∈ x.guest.executed stmts s, st ∈ stmts := by
    induction stmts generalizing s with
    | nil => exact fun st hst ↦ hst
    | cons st stmts ih =>
      intro st' hst'
      rw [Guest.executed, List.mem_cons] at hst'
      rcases hst' with rfl | hst'
      · exact List.mem_cons_self
      · split at hst'
        · cases hst'
        · exact List.mem_cons_of_mem _ (ih _ st' hst')
  have hall (stmts : List IRStmt) (iaddr : UInt64) (h : Asserted opts x.vex iaddr stmts) :
      ∀ st ∈ stmts, ∃ iaddr, st.asserted opts x.vex iaddr = true := by
    induction stmts generalizing iaddr with
    | nil => exact fun st hst ↦ absurd hst List.not_mem_nil
    | cons st stmts ih =>
      intro st' hst'
      rcases List.mem_cons.mp hst' with rfl | hst'
      · exact ⟨iaddr, h.1⟩
      · exact ih _ h.2 st' hst'
  intro st hst
  exact hall _ _ ha st (hexecuted _ _ st (List.mem_filter.mp hst).1)

/-- Each counted type has one row. -/
theorem countP_countedTypes (op op' : Op) {type : IRType} (h : countable type = true) :
    countedTypes.countP (fun type' ↦ (op', type) == (op, type')) = if op' = op then 1 else 0 := by
  cases type <;> cases h <;> cases op <;> cases op' <;> rfl

theorem sum_count_countedTypes (op : Op) {details : List (Op × IRType)}
    (h : ∀ detail ∈ details, countable detail.2 = true) :
    (countedTypes.map fun type ↦ details.count (op, type)).sum =
      details.countP fun detail ↦ detail.1 = op := by
  induction details with
  | nil => rfl
  | cons detail details ih =>
    obtain ⟨op', type⟩ := detail
    simp only [List.count_cons]
    rw [List.sum_map_add, ih fun d hd ↦ h d (List.mem_cons_of_mem _ hd), sum_map_indicator,
      countP_countedTypes op op' (h _ List.mem_cons_self), List.countP_cons]
    simp

namespace Execution

variable {σ : Type} (x : Execution opts nEvents σ)

/-- Operations of a kind executed. -/
def operationsOf (op : Op) : Nat := (x.executed.map (IRStmt.operations x.vex op)).sum

/-- Doubleword compare-and-swaps executed. -/
def dcas : Nat := x.executed.countP IRStmt.isDCAS

/-- Dirty helpers called that read memory. -/
def dirtyReads : Nat := x.executed.countP IRStmt.dirtyReads

/-- Dirty helpers called that write memory. -/
def dirtyWrites : Nat := x.executed.countP IRStmt.dirtyWrites

/-- An execution is traced as it is counted. -/
theorem accesses_traced (hn : 0 < nEvents) :
    (x.traced.map fun e ↦ e.kind.accesses.fetches).sum = x.guestInstrs ∧
    (x.traced.map fun e ↦ e.kind.accesses.reads).sum + x.dcas =
      x.operationsOf .OpLoad + x.dirtyReads ∧
    (x.traced.map fun e ↦ e.kind.accesses.writes).sum + x.dcas =
      x.operationsOf .OpStore + x.dirtyWrites := by
  have hweights (w : EventKind → Nat) (hw : w .Dm = w .Dr + w .Dw) :=
    x.sum_traced (Additive.mk hw) hn
  have hasserted := x.asserted hn
  rw [hweights (fun k ↦ k.accesses.fetches) rfl, hweights (fun k ↦ k.accesses.reads) rfl,
    hweights (fun k ↦ k.accesses.writes) rfl, guestInstrs, dcas, dirtyReads, dirtyWrites,
    operationsOf, operationsOf, ← sum_map_indicator, ← sum_map_indicator, ← sum_map_indicator,
    ← sum_map_indicator]
  generalize x.executed = sts at hasserted ⊢
  induction sts with
  | nil => exact ⟨rfl, rfl, rfl⟩
  | cons st sts ih =>
    obtain ⟨iaddr, ha⟩ := hasserted st List.mem_cons_self
    obtain ⟨hfetches, hreads, hwrites⟩ := IRStmt.weight_accesses ha
    obtain ⟨ihf, ihr, ihw⟩ := ih fun st' hst' ↦ hasserted st' (List.mem_cons_of_mem _ hst')
    simp only [List.map_cons, List.sum_cons]
    omega

/-- Every operation is counted under a type. -/
theorem sum_operations (hn : 0 < nEvents) (op : Op) :
    (countedTypes.map (x.operations op)).sum = x.operationsOf op := by
  have hcountable : ∀ detail ∈ x.executed.flatMap (IRStmt.details x.vex),
      countable detail.2 = true := by
    intro detail hdetail
    obtain ⟨st, hst, hmem⟩ := List.mem_flatMap.mp hdetail
    obtain ⟨iaddr, ha⟩ := x.asserted hn st hst
    exact IRStmt.countable_of_asserted ha detail hmem
  show (countedTypes.map fun type ↦ (x.executed.flatMap _).count (op, type)).sum = _
  rw [sum_count_countedTypes op hcountable, operationsOf, List.countP_flatMap]
  rfl

end Execution

/-! ### A session's trace against its report -/

section Sessions

variable {σ : Type} {xs : List (Execution opts nEvents σ)}

/-- What the accesses of traced events and the counts say of each other. -/
structure Agrees (xs : List (Execution opts nEvents σ)) (es : List TraceEvent) (r : Report) :
    Prop where
  fetches : ∀ b, r.basic = some b →
    (es.map fun e ↦ e.kind.accesses.fetches).sum = b.nGuestInstrs.toNat
  reads : (es.map fun e ↦ e.kind.accesses.reads).sum + total Execution.dcas xs =
    (r.details.map fun row ↦ row.loads.toNat).sum + total Execution.dirtyReads xs
  writes : (es.map fun e ↦ e.kind.accesses.writes).sum + total Execution.dcas xs =
    (r.details.map fun row ↦ row.stores.toNat).sum + total Execution.dirtyWrites xs

/-- The accesses of a session. -/
theorem session_accesses (hn : 0 < nEvents) (xs : List (Execution opts nEvents σ)) :
    ((xs.flatMap Execution.traced).map fun e ↦ e.kind.accesses.fetches).sum =
      total Execution.guestInstrs xs ∧
    ((xs.flatMap Execution.traced).map fun e ↦ e.kind.accesses.reads).sum +
        total Execution.dcas xs =
      total (fun x ↦ x.operationsOf .OpLoad) xs + total Execution.dirtyReads xs ∧
    ((xs.flatMap Execution.traced).map fun e ↦ e.kind.accesses.writes).sum +
        total Execution.dcas xs =
      total (fun x ↦ x.operationsOf .OpStore) xs + total Execution.dirtyWrites xs := by
  induction xs with
  | nil => exact ⟨rfl, rfl, rfl⟩
  | cons x xs ih =>
    obtain ⟨hfetches, hreads, hwrites⟩ := x.accesses_traced hn
    obtain ⟨ihf, ihr, ihw⟩ := ih
    simp only [total] at ihf ihr ihw ⊢
    simp only [List.flatMap_cons, List.map_append, List.sum_append, List.map_cons, List.sum_cons]
    omega

/-- The rows of a report add up to the operations executed. -/
theorem sum_rows (hn : 0 < nEvents) (op : Op) {rows : List DetailRow} {count : DetailRow → Nat}
    (h : List.Forall₂ (fun type row ↦ count row = total (fun x ↦ x.operations op type) xs)
      countedTypes rows) :
    (rows.map count).sum = total (fun x ↦ x.operationsOf op) xs := by
  have hrows : ∀ {types : List IRType} {rows : List DetailRow},
      List.Forall₂ (fun type row ↦ count row = total (fun x ↦ x.operations op type) xs) types rows →
      (rows.map count).sum =
        (types.map fun type ↦ total (fun x ↦ x.operations op type) xs).sum := by
    intro types rows h
    induction h with
    | nil => rfl
    | cons hrow _ ih => rw [List.map_cons, List.sum_cons, hrow, ih, List.map_cons, List.sum_cons]
  rw [hrows h]
  clear hrows h
  induction xs with
  | nil => rfl
  | cons x xs ih =>
    simp only [total] at ih ⊢
    simp only [List.map_cons, List.sum_cons]
    rw [List.sum_map_add, ih]
    congr 1
    exact x.sum_operations hn op

/-- The file that `md_fini` closes holds the session's events in its frames, and these agree with
what `md_fini` prints. -/
theorem report_agrees (lz : Lz4) (hn : 0 < nEvents) (fd : Nat) (maps : List (List UInt8))
    (mapsFailed : Bool) (hfit : Fits xs) (exitcode : Int) :
    ∃ t, runSession lz (.start fd maps mapsFailed) xs = .ok t ∧
      ∀ r d, mdFini lz opts exitcode t = .ok (r, d) →
        ∃ blocks es, d.out.bytes =
            (postCloInit fd maps mapsFailed).out.bytes ++ framesOf lz true blocks ∧
          List.Forall₂ (Slot.Holds readback) blocks.flatten es ∧ Agrees xs es r := by
  obtain ⟨d, log, ht, htraced⟩ := runSession_spec lz fd maps mapsFailed xs
  obtain ⟨d', hd', hbytes, hholds⟩ := memaFinalize_spec htraced
  obtain ⟨-, hexact⟩ := mdFini_spec fd maps mapsFailed hfit exitcode hd'
  refine ⟨_, ht, ?_⟩
  intro r d'' hr
  obtain ⟨hreport, hdump⟩ := hexact _ hr
  refine ⟨log.cut.done, _, (congrArg (fun d ↦ d.out.bytes) hdump).trans hbytes, hholds, ?_⟩
  obtain ⟨hfetches, hreads, hwrites⟩ := session_accesses hn xs
  constructor
  · intro b hb
    have hbasic := hreport.basic
    cases hcounts : opts.basicCounts with
    | false =>
      rw [hcounts, if_neg Bool.false_ne_true] at hbasic
      cases hbasic.symm.trans hb
    | true =>
      rw [hcounts, if_pos rfl] at hbasic
      obtain ⟨b', hb', hexact'⟩ := hbasic
      cases hb'.symm.trans hb
      rw [hfetches, hexact'.guestInstrs]
  · rw [hreads, sum_rows hn .OpLoad (hreport.details.imp fun _ _ h ↦ h.loads)]
  · rw [hwrites, sum_rows hn .OpStore (hreport.details.imp fun _ _ h ↦ h.stores)]

/-- The trace and the report of two executions. -/
theorem report_agrees_stored :
    ∃ t, runSession id (.start 3 [] false) [stored, stored] = .ok t ∧
      ∀ r d, mdFini id countMain 0 t = .ok (r, d) →
        ∃ blocks es, d.out.bytes =
            (postCloInit 3 [] false).out.bytes ++ framesOf id true blocks ∧
          List.Forall₂ (Slot.Holds readback) blocks.flatten es ∧ Agrees [stored, stored] es r :=
  report_agrees id (Nat.succ_pos 3) 3 [] false stored_fits 0

end Sessions

end Mema.Memadump
