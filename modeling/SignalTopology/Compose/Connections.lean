import SignalTopology.Compose
import SignalTopology.Library.Fallible

/-!
# Connections

A connection renames the signal that its port stands for. The table of renamings comes
about exactly if every connection finds its port, the port its signal and state, and no two
connections give one signal different names. What a text comes to is a parameter here.
-/

namespace SignalTopology

open Fallible

/-- The name of a port, once its texts are replaced. -/
def PortDef.named (text : String → String) (port : PortDef) : String :=
  match port.alias with
  | some name => name
  | none => text port.signal ++ "." ++ text port.state

/-- The connection finds a port, which stands for the signal in one of its states. -/
def ConnectionDef.Renames (component : ComponentDef) (text : String → String)
    (conn : ConnectionDef) (signalId : String) : Prop :=
  ∃ port ∈ component.ports.find? (·.named text = conn.port), text port.signal = signalId ∧
    ∃ sig ∈ component.signals.reverse.find? (text ·.id = signalId),
      text port.state ∈ sig.states.map text

/-- Every connection finds its signal, and connections to one signal have one target. -/
structure ComponentDef.Connected (component : ComponentDef) (text : String → String)
    (connections : List ConnectionDef) : Prop where
  renames : ∀ conn ∈ connections, ∃ signalId, conn.Renames component text signalId
  agree : connections.Pairwise fun conn conn' => ∀ signalId,
    conn.Renames component text signalId → conn'.Renames component text signalId →
      text conn.targetSignal = text conn'.targetSignal

section

variable {component : ComponentDef} {bound remap remap' : HashMap String} {owner : String}
variable {conn : ConnectionDef}

theorem ConnectionDef.Renames.unique {text : String → String} {id id' : String}
    (h : conn.Renames component text id) (h' : conn.Renames component text id') : id = id' := by
  obtain ⟨port, found, rfl, _⟩ := h
  obtain ⟨port', found', rfl, _⟩ := h'
  rw [Option.some.inj (found.symm.trans found')]

/-- The table of a component's signals: of two signals with one name, the later one counts. -/
theorem signalStates_lookup (bound : HashMap String) (signals : List SignalDef) (id : String) :
    (signals.foldl (fun (map : HashMap (List String)) sig =>
        map.insert (subst sig.id bound) (substVec sig.states bound)) ∅).lookup id =
      (signals.reverse.find? (subst ·.id bound = id)).map (substVec ·.states bound) := by
  have loop : ∀ (signals : List SignalDef) (map : HashMap (List String)),
      (signals.foldl (fun (map : HashMap (List String)) sig =>
          map.insert (subst sig.id bound) (substVec sig.states bound)) map).lookup id =
        ((signals.reverse.find? (subst ·.id bound = id)).map (substVec ·.states bound)).or
          (map.lookup id) := by
    intro signals
    induction signals with
    | nil => exact fun map => rfl
    | cons sig signals ih =>
        intro map
        rw [List.foldl_cons, ih, List.reverse_cons, List.find?_append, Option.map_or,
          Option.or_assoc]
        congr 1
        by_cases own : subst sig.id bound = id
        · subst own
          rw [AList.lookup_insert]
          simp
        · rw [AList.lookup_insert_ne (Ne.symm own)]
          simp [own]
  rw [loop, AList.lookup_empty, Option.or_none]

/-- A connection is added to the table if it finds its signal, and the table has no other
name for it. -/
theorem resolveConnection_iff {signals : HashMap (List String)}
    (states : ∀ id, signals.lookup id =
      (component.signals.reverse.find? (subst ·.id bound = id)).map (substVec ·.states bound)) :
    resolveConnection component signals bound owner remap conn = .ok remap' ↔
      ∃ signalId, conn.Renames component (subst · bound) signalId ∧
        (∀ existing ∈ remap.lookup signalId, existing = subst conn.targetSignal bound) ∧
        remap' = remap.insert signalId (subst conn.targetSignal bound) := by
  rw [resolveConnection]
  cases found : component.ports.find? (fun port => portName port bound = conn.port) with
  | none =>
      refine iff_of_false (fun h => by cases h) ?_
      rintro ⟨_, ⟨port, found', _⟩, _⟩
      cases found.symm.trans found'
  | some port =>
      dsimp only
      -- `portName` is the name with the bindings put in
      have renames : ∀ id, conn.Renames component (subst · bound) id ↔
          subst port.signal bound = id ∧
            ∃ sig ∈ component.signals.reverse.find? (subst ·.id bound = id),
              subst port.state bound ∈ sig.states.map (subst · bound) := by
        intro id
        constructor
        · rintro ⟨port', found', own⟩
          cases found.symm.trans found'
          exact own
        · exact fun own => ⟨port, found, own⟩
      simp only [renames, and_assoc, exists_eq_left']
      rw [states]
      cases component.signals.reverse.find? (subst ·.id bound = subst port.signal bound) with
      | none =>
          refine iff_of_false (fun h => by cases h) ?_
          rintro ⟨⟨sig, absent, _⟩, _⟩
          cases absent
      | some sig =>
          have listed_iff : (∃ sig' ∈ some sig,
              subst port.state bound ∈ sig'.states.map (subst · bound)) ↔
              subst port.state bound ∈ substVec sig.states bound := by
            simp [substVec]
          rw [listed_iff]
          dsimp only [Option.map_some]
          by_cases listed : subst port.state bound ∈ substVec sig.states bound
          · rw [if_pos listed, and_iff_right listed]
            cases remap.lookup (subst port.signal bound) with
            | none => simp [eq_comm]
            | some existing =>
                dsimp only
                by_cases conflict : existing ≠ subst conn.targetSignal bound
                · rw [if_pos conflict]
                  simp [conflict]
                · rw [if_neg conflict]
                  simp [not_not.mp conflict, eq_comm]
          · rw [if_neg listed]
            exact iff_of_false (fun h => by cases h) fun own => listed own.1

/-- From any table: the connections are in order, and none of them has another target than the
table. -/
theorem resolveConnections_from {signals : HashMap (List String)}
    (states : ∀ id, signals.lookup id =
      (component.signals.reverse.find? (subst ·.id bound = id)).map (substVec ·.states bound))
    (connections : List ConnectionDef) (remap : HashMap String) :
    (∃ remap', connections.foldlM (resolveConnection component signals bound owner) remap =
      .ok remap') ↔
    component.Connected (subst · bound) connections ∧
      ∀ conn ∈ connections, ∀ id, conn.Renames component (subst · bound) id →
        ∀ existing ∈ remap.lookup id, existing = subst conn.targetSignal bound := by
  induction connections generalizing remap with
  | nil => exact iff_of_true ⟨remap, rfl⟩ ⟨⟨by simp, .nil⟩, by simp⟩
  | cons conn connections ih =>
      simp only [List.foldlM_cons, bind_ok_iff]
      constructor
      · rintro ⟨remap', remap₁, first, rest⟩
        obtain ⟨id, own, same, rfl⟩ := (resolveConnection_iff states).mp first
        obtain ⟨connected, others⟩ := (ih _).mp ⟨remap', rest⟩
        have target : ∀ conn' ∈ connections, conn'.Renames component (subst · bound) id →
            subst conn.targetSignal bound = subst conn'.targetSignal bound :=
          fun conn' member there => others conn' member id there _ (AList.lookup_insert remap)
        refine ⟨⟨List.forall_mem_cons.mpr ⟨⟨id, own⟩, connected.renames⟩,
          List.pairwise_cons.mpr ⟨fun conn' member id' here there => ?_, connected.agree⟩⟩,
          List.forall_mem_cons.mpr ⟨fun id' here => own.unique here ▸ same, ?_⟩⟩
        · obtain rfl := own.unique here
          exact target conn' member there
        · intro conn' member id' here existing known
          by_cases again : id' = id
          · subst again
            exact (same existing known).trans (target conn' member here)
          · exact others conn' member id' here existing (by rwa [AList.lookup_insert_ne again])
      · rintro ⟨⟨renames, agree⟩, others⟩
        rw [List.forall_mem_cons] at renames others
        rw [List.pairwise_cons] at agree
        obtain ⟨id, own⟩ := renames.1
        have kept : ∀ conn' ∈ connections, ∀ id', conn'.Renames component (subst · bound) id' →
            ∀ existing ∈ (remap.insert id (subst conn.targetSignal bound)).lookup id',
              existing = subst conn'.targetSignal bound := by
          intro conn' member id' here existing known
          by_cases again : id' = id
          · subst again
            rw [AList.lookup_insert] at known
            exact Option.some.inj known ▸ agree.1 conn' member id' own here
          · rw [AList.lookup_insert_ne again] at known
            exact others.2 conn' member id' here existing known
        obtain ⟨remap', rest⟩ := (ih _).mpr ⟨⟨renames.2, agree.2⟩, kept⟩
        exact ⟨remap', _, (resolveConnection_iff states).mpr ⟨id, own, others.1 id own, rfl⟩, rest⟩

/-- The connections are resolved exactly if they are in order. -/
theorem resolveConnections_succeeds_iff {connections : List ConnectionDef} :
    (∃ remap, resolveConnections component connections bound owner = .ok remap) ↔
      component.Connected (subst · bound) connections :=
  (resolveConnections_from (signalStates_lookup bound component.signals) connections ∅).trans
    (and_iff_left (by simp))

end

end SignalTopology
