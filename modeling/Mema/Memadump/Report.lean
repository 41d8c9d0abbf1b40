import Mema.Memadump.Session
import Mema.Trace.NoLoss

/-!
# What memadump reports at exit

`memagrind/memadump/md_main.c:486–502,534–548,1119–1173`: `md_fini` prints the counters and closes
the trace. The report is compared with the statements that the session executed.
-/

namespace Mema.Memadump

/-! ### The report -/

/-- `nameOfTypeIndex`; other indices are asserted away. -/
def nameOfTypeIndex : Nat → Option String
  | 0 => some "I1"
  | 1 => some "I8"
  | 2 => some "I16"
  | 3 => some "I32"
  | 4 => some "I64"
  | 5 => some "I128"
  | 6 => some "F32"
  | 7 => some "F64"
  | 8 => some "F128"
  | 9 => some "V128"
  | 10 => some "V256"
  | _ => none

/-- A line of the detailed counts. -/
structure DetailRow where
  name : String
  loads : UInt64
  stores : UInt64
  aluOps : UInt64
  deriving DecidableEq, Repr

/-- `print_details`, `md_main.c:534–548`. -/
def DetailCounts.printDetails (n : DetailCounts) : Except Fault (List DetailRow) :=
  (List.range nTypes).mapM fun typeIx ↦
    match nameOfTypeIndex typeIx with
    | some name => .ok ⟨name, n .OpLoad typeIx, n .OpStore typeIx, n .OpAlu typeIx⟩
    | none => .error .assertion

/-- What `md_fini` prints under `--basic-counts`: the arguments of its messages, and those of
`VG_(percentify)`. The three ratios are in tenths. -/
structure BasicReport where
  nFuncCalls : UInt64
  plural : String
  fnname : String
  totalJccs : UInt64
  takenJccs : UInt64
  percentified : UInt64 × UInt64
  nSBsEntered : UInt64
  nSBsCompleted : UInt64
  nGuestInstrs : UInt64
  nIRStmts : UInt64
  guestInstrsPerSB : UInt64
  irStmtsPerSB : UInt64
  irStmtsPerGuestInstr : UInt64
  exitcode : Int
  deriving DecidableEq, Repr

/-- The branches of `md_fini` under `clo_basic_counts`, `md_main.c:1128–1161,1168–1171`. -/
def Counters.report (opts : Options) (exitcode : Int) (n : Counters) :
    Except Fault BasicReport :=
  if n.nSBsEntered = 0 then .error .assertion
  else if n.nGuestInstrs = 0 then .error .assertion
  else .ok {
    nFuncCalls := n.nFuncCalls
    plural := if n.nFuncCalls = 1 then "" else "s"
    fnname := opts.fnname
    totalJccs := n.totalJccs
    takenJccs := n.takenJccs
    percentified := (n.takenJccs, if n.totalJccs ≠ 0 then n.totalJccs else 1)
    nSBsEntered := n.nSBsEntered
    nSBsCompleted := n.nSBsCompleted
    nGuestInstrs := n.nGuestInstrs
    nIRStmts := n.nIRStmts
    guestInstrsPerSB := 10 * n.nGuestInstrs / n.nSBsEntered
    irStmtsPerSB := 10 * n.nIRStmts / n.nSBsEntered
    irStmtsPerGuestInstr := 10 * n.nIRStmts / n.nGuestInstrs
    exitcode := exitcode }

/-- What `md_fini` prints. -/
structure Report where
  basic : Option BasicReport
  details : List DetailRow
  deriving DecidableEq, Repr

/-- `md_fini`, `md_main.c:1119–1173`. -/
def mdFini (lz : Lz4) (opts : Options) (exitcode : Int) (t : Tool) :
    Except Fault (Report × Dump) := do
  if opts.fnname = "" then throw .assertion
  let basic ← if opts.basicCounts then some <$> t.counters.report opts exitcode else pure none
  let details ← t.detailCounts.printDetails
  let dump ← memaFinalize lz t.dump
  return (⟨basic, details⟩, dump)

/-! ### What the report should say -/

section Exact

variable {opts : Options} {nEvents : Nat} {σ : Type}

/-- The types that are counted, in the order of their indices. -/
def countedTypes : List IRType :=
  [.I1, .I8, .I16, .I32, .I64, .I128, .F32, .F64, .F128, .V128, .V256]

/-- Nothing that the report multiplies by ten overflows. -/
structure Fits (xs : List (Execution opts nEvents σ)) : Prop where
  irStmts : 10 * total Execution.irStmts xs < 2 ^ 64
  superblocks : xs.length < 2 ^ 64

/-- The row names its type and counts the operations on its operands. -/
structure DetailRow.Exact (xs : List (Execution opts nEvents σ)) (type : IRType)
    (row : DetailRow) : Prop where
  name : (type2index type).bind nameOfTypeIndex = some row.name
  loads : row.loads.toNat = total (fun x ↦ x.operations .OpLoad type) xs
  stores : row.stores.toNat = total (fun x ↦ x.operations .OpStore type) xs
  aluOps : row.aluOps.toNat = total (fun x ↦ x.operations .OpAlu type) xs

/-- The numbers are those of the executed superblocks, branches, instructions and statements. -/
structure BasicReport.Exact (xs : List (Execution opts nEvents σ)) (exitcode : Int)
    (b : BasicReport) : Prop where
  funcCalls : b.nFuncCalls.toNat = total Execution.funcCalls xs
  plural : b.plural = if total Execution.funcCalls xs = 1 then "" else "s"
  fnname : b.fnname = opts.fnname
  totalJccs : b.totalJccs.toNat = total Execution.sideExits xs
  takenJccs : b.takenJccs.toNat = total Execution.clientTaken xs
  percentified : b.percentified.1 = b.takenJccs ∧
    b.percentified.2.toNat = max 1 (total Execution.sideExits xs)
  sbsEntered : b.nSBsEntered.toNat = xs.length
  sbsCompleted : b.nSBsCompleted.toNat = xs.countP Execution.completes
  guestInstrs : b.nGuestInstrs.toNat = total Execution.guestInstrs xs
  irStmts : b.nIRStmts.toNat = total Execution.irStmts xs
  guestInstrsPerSB : b.guestInstrsPerSB.toNat = 10 * total Execution.guestInstrs xs / xs.length
  irStmtsPerSB : b.irStmtsPerSB.toNat = 10 * total Execution.irStmts xs / xs.length
  irStmtsPerGuestInstr : b.irStmtsPerGuestInstr.toNat =
    10 * total Execution.irStmts xs / total Execution.guestInstrs xs
  exitcode : b.exitcode = exitcode

/-- The basic report stands under its option, and every row is exact. -/
structure Report.Exact (xs : List (Execution opts nEvents σ)) (exitcode : Int) (r : Report) :
    Prop where
  basic : if opts.basicCounts then ∃ b, r.basic = some b ∧ b.Exact xs exitcode
    else r.basic = none
  details : List.Forall₂ (DetailRow.Exact xs) countedTypes r.details

/-! ### The report of a session -/

/-- Ten times one counter divided by another. -/
theorem toNat_tenths {a b : UInt64} (h : 10 * a.toNat < 2 ^ 64) :
    (10 * a / b).toNat = 10 * a.toNat / b.toNat := by
  rw [UInt64.toNat_div, UInt64.toNat_mul]
  congr 1
  exact Nat.mod_eq_of_lt h

/-- A counter that has not wrapped. -/
theorem toNat_of_count {c : UInt64} {n m : Nat} (hc : c = .ofNat n) (hn : n = m)
    (hm : m < 2 ^ 64) : c.toNat = m := by
  rw [hc, hn, UInt64.toNat_ofNat', Nat.mod_eq_of_lt hm]

theorem printDetails_eq (n : DetailCounts) :
    ∃ rows, n.printDetails = .ok rows ∧
      List.Forall₂ (fun type row ↦ ∃ typeIx, type2index type = some typeIx ∧
        nameOfTypeIndex typeIx = some row.name ∧ row.loads = n .OpLoad typeIx ∧
        row.stores = n .OpStore typeIx ∧ row.aluOps = n .OpAlu typeIx) countedTypes rows := by
  refine ⟨_, rfl, ?_⟩
  iterate 11 refine .cons ⟨_, rfl, rfl, rfl, rfl, rfl⟩ ?_
  exact .nil

/-- The rows of a session are exact. -/
theorem details_exact {xs : List (Execution opts nEvents σ)} (hfit : Fits xs) {n : DetailCounts}
    (hn : ∀ op typeIx, n op typeIx = .ofNat ((runHelpers xs).count (.incrementDetail op typeIx))) :
    ∃ rows, n.printDetails = .ok rows ∧ List.Forall₂ (DetailRow.Exact xs) countedTypes rows := by
  obtain ⟨rows, hrows, hprinted⟩ := printDetails_eq n
  refine ⟨rows, hrows, hprinted.imp ?_⟩
  rintro type row ⟨typeIx, htype, hname, hloads, hstores, halu⟩
  have hcount (op : Op) :
      (n op typeIx).toNat = total (fun x ↦ x.operations op type) xs := by
    apply toNat_of_count (hn op typeIx)
    · exact count_runHelpers (fun x ↦ x.count_detail op htype) xs
    · have hle := total_le (fun x : Execution opts nEvents σ ↦ x.operations_le op type) xs
      have hlt := hfit.irStmts
      omega
  constructor
  · rw [htype, Option.bind_some, hname]
  · rw [hloads, hcount]
  · rw [hstores, hcount]
  · rw [halu, hcount]

/-- The counters of a session, none of which has wrapped. -/
structure CountersExact (xs : List (Execution opts nEvents σ)) (n : Counters) : Prop where
  funcCalls : n.nFuncCalls.toNat = total Execution.funcCalls xs
  entered : n.nSBsEntered.toNat = xs.length
  completed : n.nSBsCompleted.toNat = xs.countP Execution.completes
  irStmts : n.nIRStmts.toNat = total Execution.irStmts xs
  guestInstrs : n.nGuestInstrs.toNat = total Execution.guestInstrs xs
  totalJccs : n.totalJccs.toNat = total Execution.sideExits xs
  takenJccs : n.takenJccs.toNat = total Execution.clientTaken xs

theorem countersExact (hcounts : opts.basicCounts = true)
    {xs : List (Execution opts nEvents σ)} (hfit : Fits xs) :
    CountersExact xs (Counters.after (runHelpers xs)) := by
  have hlt := hfit.irStmts
  have hle {n : Execution opts nEvents σ → Nat} (h : ∀ x, n x ≤ x.irStmts) :
      total n xs < 2 ^ 64 := by
    have := total_le (fun x ↦ (h x).trans_eq (Nat.one_mul _).symm) xs
    omega
  have hafter {f : Counters → UInt64} {k : HelperCall} (hzero : f .zero = 0)
      (hf : ∀ (n : Counters) (call : HelperCall),
        f (n.call call) = if call = k then f n + 1 else f n) :
      f (Counters.after (runHelpers xs)) = .ofNat ((runHelpers xs).count k) := by
    rw [Counters.after, count_calls hf, hzero, UInt64.zero_add]
  have hcounted := Counters.counted_after (runHelpers xs)
  obtain ⟨hconserves, hentered⟩ := runHelpers_conserves hcounts xs
  have hexits : (runHelpers xs).count .addOneJcc + (runHelpers xs).count .addOneInvertedJcc =
      total Execution.sideExits xs := hconserves.exits
  have hfits : (runHelpers xs).count .addOneJcc + (runHelpers xs).count .addOneInvertedJcc <
      2 ^ 64 := hexits ▸ hle Execution.sideExits_le
  constructor
  · apply toNat_of_count (hafter rfl _) (count_runHelpers (fun x ↦ x.count_funcCall hcounts) xs)
    · exact hle Execution.funcCalls_le
    · intro n call
      cases call <;> rfl
  · exact toNat_of_count hcounted.entered hentered hfit.superblocks
  · have hcompleted : (runHelpers xs).count .addOneSBCompleted = xs.countP Execution.completes := by
      rw [count_runHelpers (fun x ↦ x.count_completed hcounts), total, sum_map_indicator]
    apply toNat_of_count hcounted.completed hcompleted
    exact List.countP_le_length.trans_lt hfit.superblocks
  · apply toNat_of_count (hafter rfl _) (count_runHelpers (fun x ↦ x.count_irStmt hcounts) xs)
    · omega
    · intro n call
      cases call <;> rfl
  · apply toNat_of_count (hafter rfl _) (count_runHelpers (fun x ↦ x.count_guestInstr hcounts) xs)
    · exact hle Execution.guestInstrs_le
    · intro n call
      cases call <;> rfl
  · rw [Counters.totalJccs, hcounted.jccs, hcounted.iJccs, ← UInt64.ofNat_add]
    exact toNat_of_count rfl hexits (hle Execution.sideExits_le)
  · have hbound := hconserves.balanced.whole
    have htaken := hconserves.taken
    rw [(Counters.coherent_of_counted hcounted hbound.1 hbound.2 hfits).2, total]
    omega

theorem length_pos_of_guestInstrs {xs : List (Execution opts nEvents σ)}
    (h : 0 < total Execution.guestInstrs xs) : 0 < xs.length := by
  cases xs with
  | nil => exact absurd h (Nat.lt_irrefl 0)
  | cons x xs => exact Nat.succ_pos _

/-- `md_fini`'s basic report exists exactly when a guest instruction was executed, and is then
exact. -/
theorem report_exact {xs : List (Execution opts nEvents σ)} (hfit : Fits xs) {n : Counters}
    (hn : CountersExact xs n) (exitcode : Int) :
    if 0 < total Execution.guestInstrs xs then
      ∃ b, n.report opts exitcode = .ok b ∧ b.Exact xs exitcode
    else n.report opts exitcode = .error .assertion := by
  have hlt := hfit.irStmts
  have hle : total Execution.guestInstrs xs ≤ total Execution.irStmts xs := by
    have := total_le (fun x : Execution opts nEvents σ ↦
      x.guestInstrs_le.trans_eq (Nat.one_mul _).symm) xs
    omega
  have hzero {c : UInt64} : c = 0 ↔ c.toNat = 0 := UInt64.toNat_inj.symm
  split
  · next hpos =>
    have hentered : ¬n.nSBsEntered = 0 := by
      have hlength := length_pos_of_guestInstrs hpos
      rw [hzero, hn.entered]
      omega
    have hguest : ¬n.nGuestInstrs = 0 := by
      rw [hzero, hn.guestInstrs]
      omega
    refine ⟨_, by rw [Counters.report, if_neg hentered, if_neg hguest], ?_⟩
    constructor
    · exact hn.funcCalls
    · have hone : n.nFuncCalls = 1 ↔ total Execution.funcCalls xs = 1 := by
        rw [← hn.funcCalls]
        exact UInt64.toNat_inj.symm
      simp only [hone]
    · rfl
    · exact hn.totalJccs
    · exact hn.takenJccs
    · refine ⟨rfl, ?_⟩
      have htotal := hn.totalJccs
      show (if n.totalJccs ≠ 0 then n.totalJccs else 1).toNat = _
      split
      · next hne =>
        rw [ne_eq, hzero] at hne
        omega
      · next heq =>
        rw [not_not, hzero] at heq
        show 1 = _
        omega
    · exact hn.entered
    · exact hn.completed
    · exact hn.guestInstrs
    · exact hn.irStmts
    · have hguests := hn.guestInstrs
      rw [toNat_tenths (by omega), hn.guestInstrs, hn.entered]
    · have hstmts := hn.irStmts
      rw [toNat_tenths (by omega), hn.irStmts, hn.entered]
    · have hstmts := hn.irStmts
      rw [toNat_tenths (by omega), hn.irStmts, hn.guestInstrs]
    · rfl
  · next hnone =>
    have hguest : n.nGuestInstrs = 0 := by
      rw [hzero, hn.guestInstrs]
      omega
    rw [Counters.report, if_pos hguest, ite_self]

/-- The finalizer closes the file. -/
theorem memaFinalize_closes {lz : Lz4} {header : List UInt8} {d : Dump} {log : Chunks.Log Slot}
    {es : List TraceEvent} (h : d.Traced lz header log es) :
    ∃ d', memaFinalize lz d = .ok d' ∧ d'.out.isOpen = false := by
  obtain ⟨d', hd, ht⟩ := memaEmptyBuffer_spec h
  refine ⟨{ d' with out.isOpen := false }, ?_, rfl⟩
  rw [memaFinalize, hd]
  exact if_pos ht.fd

/-- Only the basic counts can stop `md_fini`. -/
theorem mdFini_eq {lz : Lz4} {exitcode : Int} {t : Tool} {rows : List DetailRow} {d : Dump}
    (hrows : t.detailCounts.printDetails = .ok rows) (hd : memaFinalize lz t.dump = .ok d) :
    mdFini lz opts exitcode t =
      (if opts.basicCounts then (t.counters.report opts exitcode).map some else .ok none).map
        fun basic ↦ (⟨basic, rows⟩, d) := by
  rw [mdFini, if_neg opts.fnname_ne]
  rw [hrows, hd]
  cases opts.basicCounts with
  | false => rfl
  | true => cases t.counters.report opts exitcode <;> rfl

/-- What a session leaves: the counts of its calls and the trace of its events. -/
theorem runSession_spec (lz : Lz4) (fd : Nat) (maps : List (List UInt8)) (mapsFailed : Bool)
    (xs : List (Execution opts nEvents σ)) :
    ∃ d log, runSession lz (.start fd maps mapsFailed) xs =
        .ok ((Tool.start fd maps mapsFailed).counted (runHelpers xs) d) ∧
      d.Traced lz (postCloInit fd maps mapsFailed).out.bytes log (xs.flatMap Execution.traced) := by
  obtain ⟨d, log, hd, htraced, -⟩ := runTrace_spec (postCloInit_traced lz fd maps mapsFailed)
    (Chunks.Log.filled_empty (by decide)) (xs.flatMap Execution.traced)
  refine ⟨d, log, ?_, htraced⟩
  rw [runSession_eq]
  show (runTrace lz (postCloInit fd maps mapsFailed) _).map _ = _
  rw [hd]
  rfl

/-- `md_fini` on what a session counted. -/
theorem mdFini_spec {lz : Lz4} (fd : Nat) (maps : List (List UInt8)) (mapsFailed : Bool)
    {xs : List (Execution opts nEvents σ)} (hfit : Fits xs) (exitcode : Int) {d d' : Dump}
    (hd : memaFinalize lz d = .ok d') :
    let t := (Tool.start fd maps mapsFailed).counted (runHelpers xs) d
    ((∃ result, mdFini lz opts exitcode t = .ok result) ↔
        (opts.basicCounts = true → 0 < total Execution.guestInstrs xs)) ∧
      ∀ result, mdFini lz opts exitcode t = .ok result →
        result.1.Exact xs exitcode ∧ result.2 = d' := by
  intro t
  obtain ⟨rows, hrows, hexact⟩ : ∃ rows, t.detailCounts.printDetails = .ok rows ∧
      List.Forall₂ (DetailRow.Exact xs) countedTypes rows := by
    apply details_exact hfit
    intro op typeIx
    exact (DetailCounts.after_apply _ _ _ _).trans (UInt64.zero_add _)
  rw [mdFini_eq hrows hd]
  cases hcounts : opts.basicCounts with
  | false =>
    refine ⟨⟨fun _ h ↦ absurd h Bool.false_ne_true, fun _ ↦ ⟨_, rfl⟩⟩, ?_⟩
    rintro result hresult
    cases hresult
    exact ⟨⟨by rw [hcounts]; rfl, hexact⟩, rfl⟩
  | true =>
    have hreport := report_exact hfit (countersExact hcounts hfit) exitcode
    change (if 0 < total Execution.guestInstrs xs then
      ∃ b, t.counters.report opts exitcode = .ok b ∧ b.Exact xs exitcode
      else t.counters.report opts exitcode = .error .assertion) at hreport
    rw [if_pos rfl]
    by_cases hguest : 0 < total Execution.guestInstrs xs
    · rw [if_pos hguest] at hreport
      obtain ⟨b, hb, hbasic⟩ := hreport
      rw [hb]
      refine ⟨⟨fun _ _ ↦ hguest, fun _ ↦ ⟨_, rfl⟩⟩, ?_⟩
      intro result hresult
      cases hresult
      exact ⟨⟨by rw [hcounts]; exact ⟨b, rfl, hbasic⟩, hexact⟩, rfl⟩
    · rw [if_neg hguest] at hreport
      rw [hreport]
      refine ⟨⟨fun ⟨_, h⟩ ↦ (by cases h), fun h ↦ absurd (h rfl) hguest⟩, ?_⟩
      intro result hresult
      cases hresult

/-- A session gets to its end; `md_fini` then completes exactly when basic counts are off or a
guest instruction was executed. What it prints is exact, and it closes the trace. -/
theorem session_report (lz : Lz4) (fd : Nat) (maps : List (List UInt8)) (mapsFailed : Bool)
    {xs : List (Execution opts nEvents σ)} (hfit : Fits xs) (exitcode : Int) :
    ∃ t, runSession lz (.start fd maps mapsFailed) xs = .ok t ∧
      ((∃ result, mdFini lz opts exitcode t = .ok result) ↔
        (opts.basicCounts = true → 0 < total Execution.guestInstrs xs)) ∧
      ∀ r d, mdFini lz opts exitcode t = .ok (r, d) →
        r.Exact xs exitcode ∧ d.out.isOpen = false := by
  obtain ⟨d, log, ht, htraced⟩ := runSession_spec lz fd maps mapsFailed xs
  obtain ⟨d', hd', hclosed⟩ := memaFinalize_closes htraced
  obtain ⟨hcompletes, hexact⟩ := mdFini_spec fd maps mapsFailed hfit exitcode hd'
  refine ⟨_, ht, hcompletes, ?_⟩
  intro r d'' hr
  obtain ⟨hreport, hdump⟩ := hexact _ hr
  exact ⟨hreport, (congrArg (fun d ↦ d.out.isOpen) hdump).trans hclosed⟩

end Exact

section Example

private def longs : Vex where
  sizeofIRType _ := 8
  typeOfIRExpr _ := .I64
  typeOfIRTemp _ := .I64
  fnnameIfEntry _ := some "main"
  minInstrSzB := 1
  maxInstrSzB := 16
  clreqSzB := 19

private theorem counted_ne : "main" ≠ "" := by
  decide

/-- Basic counts of `main`. -/
def countMain : Options := ⟨true, "main", counted_ne⟩

/-- An instruction that stores what it loads. -/
private def storing : List (Option IRStmt) :=
  [some (.iMark 0x1000 4), some (.wrTmp 0 (.load .I64 (.const ⟨.I64, 64⟩))),
    some (.store (.const ⟨.I64, 72⟩) (.rdTmp 0))]

/-- The instruction with its calls. -/
private def storingOut : List OutStmt :=
  [.helper .addOneSBEntered, .helper (.traceSuperblock 0x1000), .helper .addOneIRStmt,
    .helper .addOneGuestInstr, .helper .addOneFuncCall, .copied (.iMark 0x1000 4),
    .helper .addOneIRStmt, .helper (.incrementDetail .OpLoad 4),
    .copied (.wrTmp 0 (.load .I64 (.const ⟨.I64, 64⟩))), .helper .addOneIRStmt,
    .helper (.incrementDetail .OpStore 4), .copied (.store (.const ⟨.I64, 72⟩) (.rdTmp 0)),
    .helper .addOneSBCompleted, .helper (.trace ⟨.Ir, mkIRExprHWord 0x1000, 4⟩),
    .helper (.trace ⟨.Dr, .const ⟨.I64, 64⟩, 8⟩), .helper (.trace ⟨.Dw, .const ⟨.I64, 72⟩, 8⟩)]

private theorem storing_instrumented :
    mdInstrument countMain longs 4 0x1000 storing = .ok storingOut := rfl

private def stateless : Guest Unit where
  exec _ s := s
  taken _ _ := false
  atom _ _ := 0
  frame _ _ _ _ _ := rfl
  noOp _ := rfl

private theorem storing_stays : stateless.stays (preamble storing).reduceOption () = true := rfl

/-- An execution of the instruction. -/
def stored : Execution countMain 4 Unit where
  vex := longs
  base := 0x1000
  sbIn := storing
  out := storingOut
  instrumented := storing_instrumented
  guest := stateless
  state := ()
  inside := storing_stays

theorem stored_fits : Fits [stored, stored] where
  irStmts := by
    show 10 * 6 < 2 ^ 64
    decide
  superblocks := by
    show 2 < 2 ^ 64
    decide

/-- The instruction twice. -/
theorem session_report_stored :
    ∃ t, runSession id (.start 3 [] false) [stored, stored] = .ok t ∧
      ((∃ result, mdFini id countMain 0 t = .ok result) ↔
        (countMain.basicCounts = true → 0 < total Execution.guestInstrs [stored, stored])) ∧
      ∀ r d, mdFini id countMain 0 t = .ok (r, d) →
        r.Exact [stored, stored] 0 ∧ d.out.isOpen = false :=
  session_report id 3 [] false stored_fits 0

end Example

end Mema.Memadump
