import Mema.Runtime.Monitoring
import Mema.Viewer.FuncTree

/-!
# Recorded traces and the viewer's stack builder

The runtime records a call when the enable switch is on at that moment; the viewer expects
every recorded exit to have a recorded enter. `BuildStree` survives a trace exactly when no
initial part of the run makes more exits than entries while tracing is on.
-/

namespace Mema

open Nesting

namespace Switch

/-- Entries made while the entry hook finds tracing on. -/
def entriesOn : Switch → List Call → Nat
  | _, [] => 0
  | s, .functionEntry addr :: cs =>
    (if (s.entry addr).flags.disable then 0 else 1) + entriesOn (s.entry addr) cs
  | s, c :: cs => entriesOn (s.next c) cs

/-- Exits made while the exit hook finds tracing on. -/
def exitsOn : Switch → List Call → Nat
  | _, [] => 0
  | s, .functionExit addr :: cs =>
    (if (s.exit addr).flags.disable then 0 else 1) + exitsOn (s.exit addr) cs
  | s, c :: cs => exitsOn (s.next c) cs

/-- The recorded enters and exits are the entries and exits made while tracing was on. -/
theorem counts_records (s : Switch) (cs : List Call) :
    enters ((s.records cs).map Logged.token) = s.entriesOn cs ∧
      leaves ((s.records cs).map Logged.token) = s.exitsOn cs := by
  induction cs generalizing s with
  | nil => exact ⟨rfl, rfl⟩
  | cons c cs ih =>
    obtain ⟨henters, hleaves⟩ := ih (s.next c)
    rw [records_cons, List.map_append, enters_append, leaves_append, henters, hleaves]
    cases c with
    | functionEntry addr =>
      simp only [record, next, entriesOn, exitsOn]
      split <;> exact ⟨rfl, Nat.zero_add _⟩
    | functionExit addr =>
      simp only [record, next, entriesOn, exitsOn]
      split <;> exact ⟨Nat.zero_add _, rfl⟩
    | access addr size isWrite site =>
      simp only [record, next, entriesOn, exitsOn]
      split <;> exact ⟨Nat.zero_add _, Nat.zero_add _⟩
    | enable => exact ⟨Nat.zero_add _, Nat.zero_add _⟩
    | disable => exact ⟨Nat.zero_add _, Nat.zero_add _⟩

/-- Every initial part of the records is recorded by an initial part of the run. -/
theorem prefix_records (s : Switch) {cs : List Call} {es : List Logged}
    (h : es <+: s.records cs) : ∃ ds, ds <+: cs ∧ s.records ds = es := by
  induction cs generalizing s es with
  | nil =>
    rw [List.prefix_nil.mp h]
    exact ⟨[], List.nil_prefix, rfl⟩
  | cons c cs ih =>
    rw [records_cons] at h
    cases hrec : s.record c with
    | none =>
      rw [hrec, Option.toList_none, List.nil_append] at h
      obtain ⟨ds, hds, heq⟩ := ih (s.next c) h
      refine ⟨c :: ds, List.cons_prefix_cons.mpr ⟨rfl, hds⟩, ?_⟩
      rw [records_cons, hrec, heq]
      rfl
    | some e =>
      rw [hrec, Option.toList_some, List.cons_append, List.nil_append] at h
      cases es with
      | nil => exact ⟨[], List.nil_prefix, rfl⟩
      | cons e' es =>
        obtain ⟨rfl, htail⟩ := List.cons_prefix_cons.mp h
        obtain ⟨ds, hds, heq⟩ := ih (s.next c) htail
        refine ⟨c :: ds, List.cons_prefix_cons.mpr ⟨rfl, hds⟩, ?_⟩
        rw [records_cons, hrec, heq]
        rfl

/-- No initial part of the run makes more exits than entries while tracing is on. -/
def Balanced (s : Switch) (cs : List Call) : Prop :=
  ∀ ds, ds <+: cs → s.exitsOn ds ≤ s.entriesOn ds

/-- The recorded tokens replay exactly when the run is balanced. -/
theorem replay_records_iff (s : Switch) (cs : List Call) :
    (replay [] ((s.records cs).map Logged.token)).isSome ↔ s.Balanced cs := by
  rw [replay_isSome_iff]
  constructor
  · intro h ds hds
    obtain ⟨rest, rfl⟩ := hds
    have hp : (s.records ds).map Logged.token <+: (s.records (ds ++ rest)).map Logged.token := by
      rw [records_append, List.map_append]
      exact List.prefix_append _ _
    have hle := h _ hp
    obtain ⟨henters, hleaves⟩ := s.counts_records ds
    rwa [hleaves, henters, List.length_nil, Nat.zero_add] at hle
  · intro h p hp
    obtain ⟨es, hes, rfl⟩ : ∃ es, es <+: s.records cs ∧ es.map Logged.token = p := by
      obtain ⟨rest, hrest⟩ := hp
      obtain ⟨es, tail, htail, hes, -⟩ := List.map_eq_append_iff.mp hrest.symm
      exact ⟨es, ⟨tail, htail.symm⟩, hes⟩
    obtain ⟨ds, hds, rfl⟩ := s.prefix_records hes
    obtain ⟨henters, hleaves⟩ := s.counts_records ds
    rw [hleaves, henters, List.length_nil, Nat.zero_add]
    exact h ds hds

end Switch

/-! ### The viewer's side -/

/-- The viewer classifies a stored record as the runtime logged it. -/
theorem viewer_type_of_holds {r : Record} {e : Logged} (h : Slot.Holds Slot.readback r e) :
    r.type = e.type.code := by
  have htype : r.get .type = e.type.code := by
    have hread := h.read
    unfold Slot.readback at hread
    split at hread
    · next ht => cases hread; exact ht
    · next ht => cases hread; exact ht
    · next ht => cases hread; exact ht
    · cases hread
  rw [Record.type, Slot.get_typeWord, htype, h.padding, Nat.mul_zero, Nat.add_zero]

/-- The brackets of a stored record, names aside. -/
theorem token_of_holds {r : Record} {e : Logged} (h : Slot.Holds Slot.readback r e) :
    r.token.map (fun _ ↦ ()) = e.token.map fun _ ↦ () := by
  have htype := viewer_type_of_holds h
  cases e with
  | access time pc bp sp addr isWrite =>
    have hcode : r.type = 0 := htype
    rw [Record.token, hcode, if_neg (by decide), if_neg (by decide)]
    rfl
  | funcEnter addr =>
    have hcode : r.type = 1 := htype
    rw [Record.token, hcode, if_pos (by decide)]
    rfl
  | funcExit addr =>
    have hcode : r.type = 2 := htype
    rw [Record.token, hcode, if_neg (by decide), if_pos (by decide)]
    rfl

/-- Stored records replay exactly when the logged ones do. -/
theorem replay_isSome_of_holds {records : List Record} {es : List Logged}
    (h : List.Forall₂ (Slot.Holds Slot.readback) records es) :
    (replay [] (records.map Record.token)).isSome ↔
      (replay [] (es.map Logged.token)).isSome := by
  have htokens : (records.map Record.token).map (Token.map fun _ ↦ ()) =
      (es.map Logged.token).map (Token.map fun _ ↦ ()) := by
    induction h with
    | nil => rfl
    | cons hr _ ih => simp only [List.map_cons, token_of_holds hr, ih]
  have hrecords := replay_map (fun _ ↦ ()) [] (records.map Record.token)
  have hes := replay_map (fun _ ↦ ()) [] (es.map Logged.token)
  rw [List.map_nil] at hrecords hes
  rw [htokens, hes] at hrecords
  have hsome := congrArg Option.isSome hrecords
  rw [Option.isSome_map, Option.isSome_map] at hsome
  rw [hsome]

section BuildBlocks

variable {τ : Type} (S : Stree τ)

/-- `BuildStree` gets through blocks exactly when their stream replays. -/
theorem buildBlocks_ok_iff (context : List Record) (blocks : List (List Record)) :
    (∃ bs, buildBlocks S context blocks = .ok bs) ↔
      (replay context (blocks.flatten.map Record.token)).isSome := by
  induction blocks generalizing context with
  | nil => exact ⟨fun _ ↦ rfl, fun _ ↦ ⟨[], rfl⟩⟩
  | cons records blocks ih =>
    have hspec := buildStree_spec S context records
    rw [List.flatten_cons, List.map_append, replay_append]
    cases hrep : replay context (records.map Record.token) with
    | none =>
      rw [hrep] at hspec
      simp only [buildBlocks, hspec, bind, Except.bind, Option.bind_none, Option.isSome_none,
        reduceCtorEq, exists_false, Bool.false_eq_true]
    | some frames =>
      rw [hrep] at hspec
      obtain ⟨tree, hbuild, -⟩ := hspec
      rw [Option.bind_some, ← ih frames]
      simp only [buildBlocks, hbuild, bind, Except.bind]
      constructor
      · rintro ⟨bs, hbs⟩
        split at hbs
        · cases hbs
        · next rest hrest => exact ⟨rest, hrest⟩
      · rintro ⟨rest, hrest⟩
        rw [hrest]
        exact ⟨_, rfl⟩

end BuildBlocks

/-! ### Safety of recorded traces -/

/-- The run succeeds, and however its recorded stream is stored and cut into blocks,
`BuildStree` terminates normally on every block. -/
def SafeToView {τ : Type} (lz : Lz4) (S : Stree τ) (start : Startup) (cs : List Call) : Prop :=
  ∃ r es, runCalls lz (memaInitialize start) cs = .ok (r, es) ∧
    ∀ blocks : List (List Record),
      List.Forall₂ (Slot.Holds Slot.readback) blocks.flatten es →
      ∃ bs, buildBlocks S [] blocks = .ok bs

/-- Every list of logged records can be stored. -/
theorem exists_stored (es : List Logged) :
    ∃ records : List Record, List.Forall₂ (Slot.Holds Slot.readback) records es := by
  refine ⟨es.map fun e ↦ e.write Slot.zero, ?_⟩
  apply List.forall₂_map_left_iff.mpr
  apply List.forall₂_same.mpr
  intro e _
  exact ⟨e.readback_write _, by rw [e.typePadding_write, Slot.get_zero]⟩

/-- For every start-up and every sequence of calls, switching included, the recorded trace is
safe for the stack builder under every cut exactly when no initial part of the run makes more
exits than entries while tracing is on. -/
theorem safeToView_iff {τ : Type} (lz : Lz4) (S : Stree τ) (start : Startup) (cs : List Call) :
    SafeToView lz S start cs ↔ (memaInitialize start).switch.Balanced cs := by
  obtain ⟨r, hr, -, -⟩ := (memaInitialize_live start).run lz cs
  rw [← Switch.replay_records_iff]
  constructor
  · rintro ⟨r', es, hr', hsafe⟩
    cases hr.symm.trans hr'
    obtain ⟨records, hstored⟩ := exists_stored ((memaInitialize start).switch.records cs)
    obtain ⟨bs, hbs⟩ := hsafe [records] (by simpa using hstored)
    rw [← replay_isSome_of_holds hstored]
    simpa using (buildBlocks_ok_iff S [] [records]).mp ⟨bs, hbs⟩
  · intro hrep
    refine ⟨r, _, hr, ?_⟩
    intro blocks hstored
    rw [buildBlocks_ok_iff, replay_isSome_of_holds hstored]
    exact hrep

/-- Tracing switched on inside a function: its exit is recorded and its entry is not. -/
theorem enabled_inside_not_safe : ¬ SafeToView id Stree.listing Startup.toFile
    [.disable, .functionEntry 16, .enable, .functionExit 16] := by
  rintro ⟨r, es, hr, hsafe⟩
  obtain ⟨r', hr', -, -⟩ := (memaInitialize_live Startup.toFile).run id
    [.disable, .functionEntry 16, .enable, .functionExit 16]
  cases hr.symm.trans hr'
  obtain ⟨records, hstored⟩ := exists_stored ((memaInitialize Startup.toFile).switch.records
    [.disable, .functionEntry 16, .enable, .functionExit 16])
  obtain ⟨bs, hbs⟩ := hsafe [records] (by simpa using hstored)
  have hrep := (buildBlocks_ok_iff Stree.listing [] [records]).mp ⟨bs, hbs⟩
  rw [List.flatten_singleton, replay_isSome_of_holds hstored] at hrep
  exact absurd hrep (by decide)

end Mema
