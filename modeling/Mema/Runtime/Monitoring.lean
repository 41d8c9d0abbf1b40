import Mema.Trace.NoLoss

/-!
# Function monitoring and the balance of enter and exit records

With a function pattern tracing starts switched off; the entry hook of a monitored function
switches it on before it decides to log, and the exit hook of the outermost activation
switches it off before it decides. So the outermost activation logs its enter, not its exit.
-/

namespace Mema

open Nesting

/-! ### Nested calls -/

/-- Induction over properly nested hook calls, one case for each production. -/
theorem nested_calls_induction {P : List Call → Prop} (nil : P [])
    (access : ∀ addr size isWrite site cs, P cs → P (.access addr size isWrite site :: cs))
    (frame : ∀ addr cs ds, P cs → P ds →
      P (.functionEntry addr :: (cs ++ .functionExit addr :: ds)))
    {cs : List Call} (h : Nested (cs.map Call.token)) (hooks : ∀ c ∈ cs, c.IsHook) : P cs := by
  generalize hts : cs.map Call.token = ts at h
  induction h generalizing cs with
  | nil =>
    rw [List.map_eq_nil_iff.mp hts]
    exact nil
  | other _ ih =>
    obtain ⟨c, ds, rfl, hc, hds⟩ := List.map_eq_cons_iff.mp hts
    have hrest := ih (fun d hd ↦ hooks d (by simp [hd])) hds
    have hhook := hooks c (by simp)
    cases c with
    | functionEntry addr => cases hc
    | functionExit addr => cases hc
    | access addr size isWrite site => exact access addr size isWrite site ds hrest
    | enable => exact hhook.elim
    | disable => exact hhook.elim
  | frame a _ _ iht ihu =>
    obtain ⟨c, rest, rfl, hc, hrest⟩ := List.map_eq_cons_iff.mp hts
    obtain ⟨body, tail, rfl, hbody, htail⟩ := List.map_eq_append_iff.mp hrest
    obtain ⟨x, after, rfl, hx, hafter⟩ := List.map_eq_cons_iff.mp htail
    have hb := iht (fun d hd ↦ hooks d (by simp [hd])) hbody
    have ha := ihu (fun d hd ↦ hooks d (by simp [hd])) hafter
    cases c with
    | functionEntry addr =>
      cases hc
      cases x with
      | functionExit addr => cases hx; exact frame a body after hb ha
      | functionEntry addr => cases hx
      | access addr size isWrite site => cases hx
      | enable => cases hx
      | disable => cases hx
    | functionExit addr => cases hc
    | access addr size isWrite site => cases hc
    | enable => cases hc
    | disable => cases hc

namespace Switch

/-- The tokens of the records a sequence of calls logs. -/
def tokens (s : Switch) (cs : List Call) : List (Token UInt64) := (s.records cs).map Logged.token

/-- The records of a frame: those of the entry, of the body, of the exit, and of the rest. -/
theorem records_frame (s : Switch) (addr : UInt64) (cs ds : List Call) :
    s.records (.functionEntry addr :: (cs ++ .functionExit addr :: ds)) =
      (s.record (.functionEntry addr)).toList ++ ((s.entry addr).records cs ++
        ((((s.entry addr).after cs).record (.functionExit addr)).toList ++
          (((s.entry addr).after cs).exit addr).records ds)) := by
  rw [records_cons, records_append, records_cons]
  rfl

theorem after_frame (s : Switch) (addr : UInt64) (cs ds : List Call) :
    s.after (.functionEntry addr :: (cs ++ .functionExit addr :: ds)) =
      ((((s.entry addr).after cs).exit addr).after ds) := by
  rw [after_cons, after_append, after_cons]
  rfl

/-- The counter fits a frame when it fits the entry, the body and the rest. -/
theorem fits_frame (s : Switch) (addr : UInt64) (cs ds : List Call) :
    s.Fits (.functionEntry addr :: (cs ++ .functionExit addr :: ds)) ↔
      s.overflows (.functionEntry addr) = false ∧ (s.entry addr).Fits cs ∧
        (((s.entry addr).after cs).exit addr).Fits ds := by
  show _ ∧ (s.entry addr).Fits (cs ++ _) ↔ _
  rw [fits_append]
  show _ ∧ _ ∧ false = false ∧ _ ↔ _
  rw [eq_self_iff_true, true_and]
  rfl

/-- Entering a function does not change what is monitored. -/
theorem monitors_entry (s : Switch) (addr : UInt64) : (s.entry addr).monitors = s.monitors := by
  unfold Switch.entry
  split
  · rfl
  · rfl

/-- Neither does any call. -/
theorem monitors_next (s : Switch) (c : Call) : (s.next c).monitors = s.monitors := by
  cases c with
  | functionEntry addr => exact s.monitors_entry addr
  | functionExit addr =>
    show (s.exit addr).monitors = _
    unfold Switch.exit
    split
    · rfl
    · rfl
  | access addr size isWrite site => rfl
  | enable => rfl
  | disable => rfl

/-! ### Inside a monitored activation -/

/-- Tracing is on and monitored activations are open. -/
structure Inside (s : Switch) : Prop where
  on : s.flags.disable = false
  count : 0 < s.monitorFuncEntryCount

/-- Inside, an entry counts one more. -/
theorem Inside.count_entry {s : Switch} (h : s.Inside) {addr : UInt64}
    (hm : s.monitors addr = true) (hfits : s.overflows (.functionEntry addr) = false) :
    0 < s.monitorFuncEntryCount + 1 := by
  have hc := Int32.lt_iff_toInt_lt.mp h.count
  rw [Int32.lt_iff_toInt_lt, toInt_count_succ hm hfits]
  exact Int.lt_add_one_of_le (Int.le_of_lt hc)

/-- Inside, an entry keeps tracing on. -/
theorem Inside.entry {s : Switch} (h : s.Inside) {addr : UInt64}
    (hfits : s.overflows (.functionEntry addr) = false) : (s.entry addr).Inside := by
  unfold Switch.entry
  split
  · next hm =>
    constructor
    · simp only [h.on, ite_self]
    · exact h.count_entry hm hfits
  · exact h

/-- An exit right after its entry restores the switch while activations stay open. -/
theorem Inside.exit_entry {s : Switch} (h : s.Inside) {addr : UInt64}
    (hfits : s.overflows (.functionEntry addr) = false) : (s.entry addr).exit addr = s := by
  have hne : ¬ s.monitorFuncEntryCount = 0 := by
    intro h0
    have hc := h.count
    rw [h0] at hc
    exact absurd hc (by decide)
  by_cases hm : s.monitors addr = true
  · have hm' : (s.entry addr).monitors addr = true := by
      rw [monitors_entry]
      exact hm
    have hcount : (s.entry addr).monitorFuncEntryCount = s.monitorFuncEntryCount + 1 := by
      rw [Switch.entry, if_pos hm]
    have hdis : (s.entry addr).flags = s.flags := by
      rw [Switch.entry, if_pos hm]
      simp only [if_neg hne]
    have hpos : s.monitorFuncEntryCount + 1 > 0 := h.count_entry hm hfits
    rw [Switch.exit, if_pos hm']
    simp only [hcount, hdis, hpos, ↓reduceIte, Int32.add_sub_cancel, if_neg hne]
    rw [Switch.entry, if_pos hm]
  · rw [Switch.entry, if_neg hm, Switch.exit, if_neg hm]

/-- Inside a monitored activation nested calls restore the switch, and their records are
nested. -/
theorem Inside.nested {cs : List Call} (h : Nested (cs.map Call.token))
    (hooks : ∀ c ∈ cs, c.IsHook) :
    ∀ s : Switch, s.Inside → s.Fits cs → s.after cs = s ∧ Nested (s.tokens cs) := by
  apply nested_calls_induction (P := fun cs ↦
    ∀ s : Switch, s.Inside → s.Fits cs → s.after cs = s ∧ Nested (s.tokens cs)) _ _ _ h hooks
  · exact fun s _ _ ↦ ⟨rfl, .nil⟩
  · intro addr size isWrite site cs ih s hs hfits
    obtain ⟨hafter, hnest⟩ := ih s hs hfits.2
    refine ⟨hafter, ?_⟩
    rw [tokens, records_cons, record]
    split
    · exact hnest
    · exact hnest.other
  · intro addr cs ds ihc ihd s hs hfits
    obtain ⟨hentry, hbody, hrest⟩ := (s.fits_frame addr cs ds).mp hfits
    have hback := hs.exit_entry hentry
    obtain ⟨hafter, hnest⟩ := ihc (s.entry addr) (hs.entry hentry) hbody
    rw [hafter, hback] at hrest
    obtain ⟨hafter', hnest'⟩ := ihd s hs hrest
    refine ⟨by rw [after_frame, hafter, hback, hafter'], ?_⟩
    have henter : s.record (.functionEntry addr) = some (.funcEnter addr) := by
      rw [record, (hs.entry hentry).on]
      rfl
    have hexit : (s.entry addr).record (.functionExit addr) = some (.funcExit addr) := by
      rw [record, hback, hs.on]
      rfl
    rw [tokens, records_frame, hafter, henter, hexit, hback]
    simp only [Option.toList_some, List.map_append, List.map_cons, List.cons_append,
      List.nil_append]
    exact Nested.frame addr hnest hnest'

/-! ### Outside -/

/-- Tracing is off and no monitored activation is open. -/
structure Idle (s : Switch) : Prop where
  off : s.flags.disable = true
  count : s.monitorFuncEntryCount = 0

/-- Some call in the sequence enters a monitored function. -/
def Touches (s : Switch) (cs : List Call) : Prop :=
  ∃ addr, Call.functionEntry addr ∈ cs ∧ s.monitors addr = true

/-- What nested calls do to an idle switch: it is restored, no monitored call means no record,
and a monitored call means more enters than exits. -/
structure Idles (s : Switch) (cs : List Call) : Prop where
  after : s.after cs = s
  silent : ¬ s.Touches cs → s.records cs = []
  le : leaves (s.tokens cs) ≤ enters (s.tokens cs)
  lt : s.Touches cs → leaves (s.tokens cs) < enters (s.tokens cs)

theorem Idles.nil (s : Switch) : s.Idles [] :=
  ⟨rfl, fun _ ↦ rfl, Nat.le_refl _, fun ⟨_, h, _⟩ ↦ absurd h (by simp)⟩

/-- An access is not recorded while idle. -/
theorem Idles.access {s : Switch} (hs : s.Idle) {cs : List Call} (h : s.Idles cs)
    (addr : UInt64) (size : UInt8) (isWrite : Bool) (site : CallSite) :
    s.Idles (.access addr size isWrite site :: cs) := by
  have hrecords : s.records (.access addr size isWrite site :: cs) = s.records cs := by
    rw [records_cons, record, hs.off]
    rfl
  have htouch : s.Touches (.access addr size isWrite site :: cs) ↔ s.Touches cs := by
    simp [Touches]
  refine ⟨h.after, ?_, ?_, ?_⟩
  · rw [hrecords, htouch]
    exact h.silent
  · rw [tokens, hrecords]
    exact h.le
  · rw [tokens, hrecords, htouch]
    exact h.lt

/-- Entering a monitored function while idle switches tracing on, and its exit off again. -/
theorem Idle.monitored {s : Switch} (hs : s.Idle) {addr : UInt64} (hm : s.monitors addr = true) :
    (s.entry addr).Inside ∧ (s.entry addr).exit addr = s := by
  have hm' : (s.entry addr).monitors addr = true := by
    rw [monitors_entry]
    exact hm
  obtain ⟨flags, mf, addrs, count⟩ := s
  obtain ⟨disable, verbosity, debug, compression, filename, funcname⟩ := flags
  obtain ⟨hoff, hcount⟩ := hs
  simp only at hoff hcount
  subst hoff hcount
  constructor
  · rw [Switch.entry, if_pos hm]
    exact ⟨rfl, show (0 : Int32) < 0 + 1 by decide⟩
  · have hone : (0 : Int32) + 1 > 0 := by decide
    have hback : (0 : Int32) + 1 - 1 = 0 := by decide
    rw [Switch.exit, if_pos hm', Switch.entry, if_pos hm]
    simp only [hone, hback, ↓reduceIte]

/-- A frame of a monitored function while idle: its enter is recorded, its exit is not. -/
theorem Idles.monitored {s : Switch} (hs : s.Idle) {addr : UInt64} (hm : s.monitors addr = true)
    {cs ds : List Call} (hcs : Nested (cs.map Call.token)) (hooks : ∀ c ∈ cs, c.IsHook)
    (hfits : s.Fits (.functionEntry addr :: (cs ++ .functionExit addr :: ds)))
    (hds : s.Fits ds → s.Idles ds) :
    s.Idles (.functionEntry addr :: (cs ++ .functionExit addr :: ds)) := by
  obtain ⟨-, hbody, hrest⟩ := (s.fits_frame addr cs ds).mp hfits
  obtain ⟨hin, hexit⟩ := hs.monitored hm
  obtain ⟨hafter, hnest⟩ := Inside.nested hcs hooks _ hin hbody
  rw [hafter, hexit] at hrest
  have hds := hds hrest
  have htokens : s.tokens (.functionEntry addr :: (cs ++ .functionExit addr :: ds)) =
      .enter addr :: ((s.entry addr).tokens cs ++ s.tokens ds) := by
    rw [tokens, records_frame, hafter, record, hin.on, record, hexit, hs.off]
    simp only [Bool.false_eq_true, ↓reduceIte, Option.toList_some, Option.toList_none,
      List.map_append, List.map_cons, List.nil_append, List.cons_append]
    rfl
  have hmore : leaves (s.tokens (.functionEntry addr :: (cs ++ .functionExit addr :: ds))) <
      enters (s.tokens (.functionEntry addr :: (cs ++ .functionExit addr :: ds))) := by
    have hle := hds.le
    have heq := hnest.enters_eq_leaves
    rw [htokens]
    simp only [enters, leaves, enters_append, leaves_append]
    omega
  refine ⟨by rw [after_frame, hafter, hexit, hds.after], ?_, le_of_lt hmore, fun _ ↦ hmore⟩
  intro hnot
  exact absurd ⟨addr, by simp, hm⟩ hnot

/-- A frame of an unmonitored function while idle leaves no record of its own. -/
theorem Idles.unmonitored {s : Switch} (hs : s.Idle) {addr : UInt64}
    (hm : ¬ s.monitors addr = true) {cs ds : List Call}
    (hfits : s.Fits (.functionEntry addr :: (cs ++ .functionExit addr :: ds)))
    (hcs : s.Fits cs → s.Idles cs) (hds : s.Fits ds → s.Idles ds) :
    s.Idles (.functionEntry addr :: (cs ++ .functionExit addr :: ds)) := by
  have hentry : s.entry addr = s := by rw [Switch.entry, if_neg hm]
  have hexit : s.exit addr = s := by rw [Switch.exit, if_neg hm]
  obtain ⟨-, hbody, hrest⟩ := (s.fits_frame addr cs ds).mp hfits
  rw [hentry] at hbody hrest
  have hcs := hcs hbody
  rw [hcs.after, hexit] at hrest
  have hds := hds hrest
  have hrecords : s.records (.functionEntry addr :: (cs ++ .functionExit addr :: ds)) =
      s.records cs ++ s.records ds := by
    rw [records_frame, record, hentry, hcs.after, record, hexit, hs.off]
    rfl
  have htouch : s.Touches (.functionEntry addr :: (cs ++ .functionExit addr :: ds)) ↔
      s.Touches cs ∨ s.Touches ds := by
    simp only [Touches, List.mem_cons, List.mem_append, Call.functionEntry.injEq, reduceCtorEq,
      false_or]
    constructor
    · rintro ⟨a, rfl | hc | hd, ha⟩
      · exact absurd ha hm
      · exact .inl ⟨a, hc, ha⟩
      · exact .inr ⟨a, hd, ha⟩
    · rintro (⟨a, hc, ha⟩ | ⟨a, hd, ha⟩)
      · exact ⟨a, .inr (.inl hc), ha⟩
      · exact ⟨a, .inr (.inr hd), ha⟩
  have hle := hcs.le
  have hle' := hds.le
  refine ⟨by rw [after_frame, hentry, hcs.after, hexit, hds.after], ?_, ?_, ?_⟩
  · intro hnot
    rw [htouch, not_or] at hnot
    rw [hrecords, hcs.silent hnot.1, hds.silent hnot.2]
    rfl
  · rw [tokens, hrecords, List.map_append, enters_append, leaves_append]
    exact Nat.add_le_add hle hle'
  · rw [tokens, hrecords, List.map_append, enters_append, leaves_append, htouch]
    rintro (hc | hd)
    · exact Nat.add_lt_add_of_lt_of_le (hcs.lt hc) hle'
    · exact Nat.add_lt_add_of_le_of_lt hle (hds.lt hd)

/-- Properly nested hook calls do this to an idle switch whose counter fits them. -/
theorem Idle.idles {s : Switch} (hs : s.Idle) {cs : List Call} (h : Nested (cs.map Call.token))
    (hooks : ∀ c ∈ cs, c.IsHook) : s.Fits cs → s.Idles cs := by
  have hall : Nested (cs.map Call.token) ∧ (∀ c ∈ cs, c.IsHook) ∧ (s.Fits cs → s.Idles cs) := by
    apply nested_calls_induction (P := fun cs ↦
      Nested (cs.map Call.token) ∧ (∀ c ∈ cs, c.IsHook) ∧ (s.Fits cs → s.Idles cs)) _ _ _ h hooks
    · exact ⟨.nil, by simp, fun _ ↦ .nil s⟩
    · rintro addr size isWrite site cs ⟨hn, hh, hi⟩
      refine ⟨hn.other, ?_, fun hfits ↦ (hi hfits.2).access hs addr size isWrite site⟩
      intro c hc
      rcases List.mem_cons.mp hc with rfl | hc
      · exact trivial
      · exact hh c hc
    · rintro addr cs ds ⟨hnc, hhc, hic⟩ ⟨hnd, hhd, hid⟩
      refine ⟨?_, ?_, ?_⟩
      · simp only [List.map_cons, List.map_append]
        exact Nested.frame addr hnc hnd
      · intro c hc
        rcases List.mem_cons.mp hc with rfl | hc
        · exact trivial
        · rcases List.mem_append.mp hc with hc | hc
          · exact hhc c hc
          · rcases List.mem_cons.mp hc with rfl | hc
            · exact trivial
            · exact hhd c hc
      · intro hfits
        by_cases hm : s.monitors addr = true
        · exact Idles.monitored hs hm hnc hhc hfits hid
        · exact Idles.unmonitored hs hm hfits hic hid
  exact hall.2.2

/-- Calls of unmonitored functions are not counted. -/
theorem fits_of_not_touches {s : Switch} {cs : List Call} (h : ¬ s.Touches cs) : s.Fits cs := by
  induction cs generalizing s with
  | nil => trivial
  | cons c cs ih =>
    constructor
    · cases c with
      | functionEntry addr =>
        rw [overflows, Bool.and_eq_false_iff]
        left
        rw [← Bool.not_eq_true]
        exact fun hm ↦ h ⟨addr, List.mem_cons_self, hm⟩
      | functionExit addr => rfl
      | access addr size isWrite site => rfl
      | enable => rfl
      | disable => rfl
    · apply ih
      rintro ⟨addr, hmem, hm⟩
      rw [monitors_next] at hm
      exact h ⟨addr, List.mem_cons_of_mem c hmem, hm⟩

/-- While idle, nested calls are defined and log a nested sequence exactly when no monitored
function is called. -/
theorem Idle.nested_tokens_iff {s : Switch} (hs : s.Idle) {cs : List Call}
    (h : Nested (cs.map Call.token)) (hooks : ∀ c ∈ cs, c.IsHook) :
    s.Fits cs ∧ Nested (s.tokens cs) ↔ ¬ s.Touches cs := by
  constructor
  · rintro ⟨hfits, hn⟩ htouch
    have hlt := (hs.idles h hooks hfits).lt htouch
    have heq := hn.enters_eq_leaves
    omega
  · intro hnot
    have hfits := fits_of_not_touches hnot
    refine ⟨hfits, ?_⟩
    rw [tokens, (hs.idles h hooks hfits).silent hnot]
    exact .nil

end Switch

/-! ### The runtime -/

/-- Initialisation leaves the thread able to take calls, whatever the environment answers. -/
theorem memaInitialize_live (start : Startup) : (memaInitialize start).Live := by
  have hroom : ∃ ss, TraceBuffer.fresh.setUp.Laid ss ∧ ss.length < flushSize :=
    ⟨[], TraceBuffer.laid_setUp _, by decide⟩
  by_cases hname : start.flags.filename.isSome = true
  · obtain ⟨r, hr, hrun⟩ := memaInitialize_opened hname
    obtain ⟨hinit, hfd, -, hopen⟩ := memaWriteHeader_frame start r.shared
    rw [hrun]
    refine ⟨hinit.trans hr.initialized, hr.outside, ?_, ?_⟩
    · show ∃ ss, r.thread.buffer.Laid ss ∧ _
      rw [hr.buffer]
      exact hroom
    · by_cases hnone : start.fd = -1
      · exact .inl (hfd.trans (hr.fd.trans hnone))
      · refine .inr (hopen.trans ?_)
        rw [hr.out]
        simpa using hnone
  · rw [memaInitialize, if_pos (by simpa using hname)]
    exact ⟨rfl, rfl, hroom, .inl rfl⟩

/-- A start-up with a file name and a function pattern that selects these addresses. -/
structure Startup.Monitors (start : Startup) (addrs : Finset UInt64) : Prop where
  named : start.flags.filename.isSome = true
  pattern : start.flags.funcname.isSome = true
  selected : start.monitoring = .selected addrs

/-- Writing the header leaves the monitored addresses alone. -/
theorem memaWriteHeader_monitored (start : Startup) (s : Shared) :
    (memaWriteHeader start s).monitorFuncAddresses = s.monitorFuncAddresses := by
  have hfold : ∀ (maps : List (List UInt8)) (s : Shared),
      (maps.foldl Shared.writeCounted s).monitorFuncAddresses = s.monitorFuncAddresses := by
    intro maps
    induction maps with
    | nil => exact fun s ↦ rfl
    | cons m maps ih => exact fun s ↦ ih (s.writeCounted m)
  exact hfold start.maps (s.writeCounted magicBytes)

/-- What set-up leaves behind when a function pattern has selected addresses. -/
theorem memaInitialize_selected {start : Startup} {addrs : Finset UInt64}
    (h : start.Monitors addrs) :
    ∃ s t, memaInitialize start = ⟨memaWriteHeader start s, t⟩ ∧
      s.flags = { start.flags with disable := true } ∧ s.monitorFuncAddresses = addrs ∧
      t.monitorFunc = true ∧ t.monitorFuncEntryCount = 0 := by
  have hnone : ¬ start.flags.filename.isNone = true := by
    simpa [Option.isSome_iff_ne_none] using h.named
  refine ⟨_, _, by rw [memaInitialize, if_neg hnone], ?_, ?_, ?_, ?_⟩
  all_goals
    rw [if_pos h.pattern, h.selected]
    rfl

/-- With a function pattern, tracing starts off with no monitored activation open. -/
theorem memaInitialize_monitors {start : Startup} {addrs : Finset UInt64}
    (h : start.Monitors addrs) :
    (memaInitialize start).switch.Idle ∧
      ∀ addr, (memaInitialize start).switch.monitors addr = true ↔ addr ∈ addrs := by
  obtain ⟨s, t, hrun, hflags, haddrs, hmf, hcount⟩ := memaInitialize_selected h
  rw [hrun]
  refine ⟨⟨?_, hcount⟩, ?_⟩
  · change (memaWriteHeader start s).flags.disable = true
    rw [(memaWriteHeader_frame start s).2.2.1, hflags]
  · intro addr
    change (t.monitorFunc && decide (addr ∈ (memaWriteHeader start s).monitorFuncAddresses)) =
      true ↔ _
    rw [hmf, memaWriteHeader_monitored, haddrs]
    simp

/-- The calls succeed and the enter and exit records they log are properly nested: every enter
has a matching exit of the same address. -/
def LogsNested (lz : Lz4) (start : Startup) (cs : List Call) : Prop :=
  ∃ r es, runDefined lz (memaInitialize start) cs = .ok (r, es) ∧ Nested (es.map Logged.token)

/-- What is logged is decided by the switch. -/
theorem logsNested_iff_tokens (lz : Lz4) (start : Startup) (cs : List Call) :
    LogsNested lz start cs ↔ (memaInitialize start).switch.Fits cs ∧
      Nested ((memaInitialize start).switch.tokens cs) := by
  have hlive := memaInitialize_live start
  obtain ⟨r, hr, -, -⟩ := hlive.run lz cs
  constructor
  · rintro ⟨r', es, hr', hn⟩
    obtain ⟨hfits, hcalls⟩ := (hlive.runDefined_iff lz cs _).mp hr'
    cases hr.symm.trans hcalls
    exact ⟨hfits, hn⟩
  · rintro ⟨hfits, hn⟩
    exact ⟨r, _, (hlive.runDefined_iff lz cs _).mpr ⟨hfits, hr⟩, hn⟩

/-- For every set of monitored addresses and every properly nested sequence of hook calls, the
records are properly nested exactly when no monitored function is called. -/
theorem logsNested_iff (lz : Lz4) {start : Startup} {addrs : Finset UInt64}
    (h : start.Monitors addrs) {cs : List Call} (hcs : Nested (cs.map Call.token))
    (hooks : ∀ c ∈ cs, c.IsHook) :
    LogsNested lz start cs ↔ ∀ addr, Call.functionEntry addr ∈ cs → addr ∉ addrs := by
  obtain ⟨hidle, hmon⟩ := memaInitialize_monitors h
  rw [logsNested_iff_tokens, hidle.nested_tokens_iff hcs hooks, Switch.Touches]
  simp only [hmon, not_exists, not_and]

/-- A start-up that monitors the function at address 16. -/
def Startup.toMonitor : Startup :=
  ⟨{ Flags.toFile with funcname := some "f" }, .selected {16}, 3, [], false⟩

/-- One call of the monitored function: its enter is logged and its exit is not. -/
theorem one_activation_not_nested :
    ¬ LogsNested id Startup.toMonitor [.functionEntry 16, .functionExit 16] := by
  rw [logsNested_iff_tokens]
  have htokens : (memaInitialize Startup.toMonitor).switch.tokens
      [.functionEntry 16, .functionExit 16] = [.enter 16] := by decide
  rw [htokens]
  rintro ⟨-, hn⟩
  exact absurd hn.enters_eq_leaves (by decide)

/-- The equivalence at a monitored function called from an unmonitored one. -/
theorem logsNested_iff_nested_call :
    LogsNested id Startup.toMonitor
        [.functionEntry 32, .functionEntry 16, .functionExit 16, .functionExit 32] ↔
      ∀ addr, Call.functionEntry addr ∈ ([.functionEntry 32, .functionEntry 16, .functionExit 16,
        .functionExit 32] : List Call) → addr ∉ ({16} : Finset UInt64) :=
  logsNested_iff id ⟨rfl, rfl, rfl⟩ (.frame 32 (.frame 16 .nil .nil) .nil)
    (by simp [Call.IsHook])

end Mema
