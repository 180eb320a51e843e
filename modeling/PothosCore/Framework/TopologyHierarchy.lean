import PothosCore.Framework.TopologyConnect
import PothosCore.Lib.Transition

/-!
# PothosCore.Framework.TopologyHierarchy

The ports that a topology has as a block of a hierarchy: the flows from and to itself,
the lists of their names, and the infos.

The names are kept in step with the flows by every `connect`, also by one that throws
because the flow is there already. A `disconnect` looks for the names of the topology on
the wrong side, and `disconnectAll` does not look at them, so neither may get at a flow
of the hierarchy. That is the condition of `Sound`; it is also the exact one for what a
call that throws leaves behind.
-/

namespace PothosCore.Framework

open PothosCore.Lib

/-! ### What is reported -/

/-- Every name has an info, under that name. -/
def Named (names : List String) (infos : String → Option PortInfo) : Prop :=
  ∀ name ∈ names, ∃ info, infos name = some info ∧ info.name = name

theorem Named.append {names : List String} {infos : String → Option PortInfo} {x : String} {info : PortInfo}
    (h : Named names infos) (hx : info.name = x) :
    Named (names ++ [x]) (Function.update infos x (some info)) := by
  intro name hname
  by_cases hsame : name = x
  · subst hsame
    exact ⟨info, Function.update_self .., hx⟩
  · rw [Function.update_of_ne hsame]
    simp only [List.mem_append, List.mem_singleton, hsame, or_false] at hname
    exact h name hname

theorem portInfoAt_ok {infos : String → Option PortInfo} {name : String} {info : PortInfo} :
    portInfoAt infos name = .ok info ↔ infos name = some info ∧ info.name = name := by
  unfold portInfoAt
  cases infos name with
  | none => simp
  | some info' =>
      by_cases hname : info'.name = name
      · simp only [hname, if_true, Except.ok.injEq, Option.some.injEq]
        exact ⟨fun h => ⟨h, h ▸ hname⟩, fun h => h.1⟩
      · simp only [hname, if_false, reduceCtorEq, Option.some.injEq, false_iff, not_and]
        rintro rfl
        exact hname

theorem reportedInfos_ok {names : List String} {infos : String → Option PortInfo} (h : Named names infos) :
    ∃ out, reportedInfos names infos = .ok out ∧ out.map (·.name) = names.eraseDups := by
  have hall : ∀ l : List String, Named l infos →
      ∃ out, l.mapM (portInfoAt infos) = .ok out ∧ out.map (·.name) = l := by
    intro l
    induction l with
    | nil => exact fun _ => ⟨[], rfl, rfl⟩
    | cons name l ih =>
        intro hl
        obtain ⟨info, hinfo⟩ := hl name List.mem_cons_self
        obtain ⟨out, hout, hnames⟩ := ih fun x hx => hl x (List.mem_cons_of_mem name hx)
        refine ⟨info :: out, ?_, by simp [hinfo.2, hnames]⟩
        rw [List.mapM_cons, hout, portInfoAt_ok.mpr hinfo]
        rfl
  exact hall _ fun name hname => h name (List.mem_eraseDups.mp hname)

theorem named_of_reportedInfos {names : List String} {infos : String → Option PortInfo} {out : List PortInfo}
    (h : reportedInfos names infos = .ok out) : Named names infos := by
  have hall : ∀ (l : List String) (out : List PortInfo),
      l.mapM (portInfoAt infos) = .ok out → Named l infos := by
    intro l
    induction l with
    | nil =>
        intro out _ name hname
        cases hname
    | cons name l ih =>
        intro out hout
        rw [List.mapM_cons] at hout
        cases hinfo : portInfoAt infos name with
        | error e => simp only [hinfo] at hout; cases hout
        | ok info =>
            cases hrest : l.mapM (portInfoAt infos) with
            | error e => simp only [hinfo, hrest] at hout; cases hout
            | ok rest =>
                intro x hx
                rcases List.mem_cons.mp hx with rfl | hx
                · exact ⟨info, portInfoAt_ok.mp hinfo⟩
                · exact ih rest hrest x hx
  exact fun name hname => hall _ out h name (List.mem_eraseDups.mpr hname)

/-- The names that a topology reports are all names in the list. -/
theorem reports_iff {names : List String} {infos : String → Option PortInfo} {P : String → Prop} :
    (∃ out, reportedInfos names infos = .ok out ∧ ∀ name, name ∈ out.map (·.name) ↔ P name) ↔
      Named names infos ∧ ∀ name, name ∈ names ↔ P name := by
  constructor
  · rintro ⟨out, hout, hP⟩
    have hnamed := named_of_reportedInfos hout
    obtain ⟨out', hout', hnames⟩ := reportedInfos_ok hnamed
    obtain rfl : out = out' := Except.ok.inj (hout.symm.trans hout')
    refine ⟨hnamed, fun name => ?_⟩
    rw [← hP, hnames, List.mem_eraseDups]
  · rintro ⟨hnamed, hP⟩
    obtain ⟨out, hout, hnames⟩ := reportedInfos_ok hnamed
    refine ⟨out, hout, fun name => ?_⟩
    rw [hnames, List.mem_eraseDups, hP]

namespace TopologyImpl

variable (o : Objects)

/-- The names that `inputPortInfo()` and `outputPortInfo()` report are those of the flows
from and to the topology itself. -/
structure Consistent (t : TopologyImpl) : Prop where
  inputs : ∃ infos, reportedInfos t.inputPortNames t.inputPortInfo = .ok infos ∧
    ∀ name, name ∈ infos.map (·.name) ↔ ∃ flow ∈ t.flows, flow.src = ⟨o.self, name⟩
  outputs : ∃ infos, reportedInfos t.outputPortNames t.outputPortInfo = .ok infos ∧
    ∀ name, name ∈ infos.map (·.name) ↔ ∃ flow ∈ t.flows, flow.dst = ⟨o.self, name⟩

/-- Flows, port names and port infos are the same. -/
structure SameHierarchy (s t : TopologyImpl) : Prop where
  flows : t.flows = s.flows
  inputPortNames : t.inputPortNames = s.inputPortNames
  outputPortNames : t.outputPortNames = s.outputPortNames
  inputPortInfo : t.inputPortInfo = s.inputPortInfo
  outputPortInfo : t.outputPortInfo = s.outputPortInfo

/-- A call, returning or throwing. Until the next one, anything may happen to the blocks. -/
def step (t : TopologyImpl) (c : Call) (t' : TopologyImpl) : Prop := SameHierarchy (call o t c).2 t'

/-- The topology is an end of the flow. -/
def Hierarchical (flow : Flow) : Prop := flow.src.uid = o.self ∨ flow.dst.uid = o.self

/-- A `connect` of a flow of the hierarchy that the list has got already. Its ports are
found. -/
def Repeats (t : TopologyImpl) (flow : Flow) : Prop :=
  Hierarchical o flow ∧ flow ∈ t.flows ∧
    ∃ t', autoAllocateFlow o t flow = .ok t' ∧ validate o t' flow = .ok ()

/-- A `disconnect` of a flow of the hierarchy that finds the names, on the other side of
the topology. -/
def Misdirected (t : TopologyImpl) (flow : Flow) : Prop :=
  Hierarchical o flow ∧ validateDisconnect o t flow = .ok ()

/-- From its first occurrence on there is no other name. -/
def EndsIn (name : String) (names : List String) : Prop :=
  ∃ before n, name ∉ before ∧ names = before ++ List.replicate n name

/-- A pass-through with one name, which is known on both sides and has no other name
behind it. -/
def PassesUnder (t : TopologyImpl) (flow : Flow) : Prop :=
  flow.src.uid = o.self ∧ flow.dst.uid = o.self ∧ flow.src.name = flow.dst.name ∧
    EndsIn flow.src.name t.inputPortNames ∧ EndsIn flow.dst.name t.outputPortNames ∧
    Named [flow.src.name] t.inputPortInfo ∧ Named [flow.dst.name] t.outputPortInfo

/-- **The condition on a call.** -/
def Sound (t : TopologyImpl) : Call → Prop
  | .connect src srcName dst dstName =>
      ∀ flow, Objects.makeFlow "Pothos::Topology::connect()" src srcName dst dstName = .ok flow →
        ¬ Repeats o t flow
  | .disconnect src srcName dst dstName =>
      ∀ flow, Objects.makeFlow "Pothos::Topology::disconnect()" src srcName dst dstName = .ok flow →
        ¬ Misdirected o t flow
  | .disconnectAll => ∀ flow ∈ t.flows, ¬ Hierarchical o flow

variable {o}

/-! ### What the calls change -/

theorem SameHierarchy.refl (t : TopologyImpl) : SameHierarchy t t := ⟨rfl, rfl, rfl, rfl, rfl⟩

theorem SameHierarchy.trans {r s t : TopologyImpl} (h : SameHierarchy r s) (h' : SameHierarchy s t) :
    SameHierarchy r t :=
  ⟨h'.flows.trans h.flows, h'.inputPortNames.trans h.inputPortNames,
    h'.outputPortNames.trans h.outputPortNames, h'.inputPortInfo.trans h.inputPortInfo,
    h'.outputPortInfo.trans h.outputPortInfo⟩

theorem SameHierarchy.symm {s t : TopologyImpl} (h : SameHierarchy s t) : SameHierarchy t s :=
  ⟨h.flows.symm, h.inputPortNames.symm, h.outputPortNames.symm, h.inputPortInfo.symm, h.outputPortInfo.symm⟩

theorem sameHierarchy_autoAllocate {t t' : TopologyImpl} {isInput : Bool} {port : Port}
    (h : autoAllocate o t isInput port = .ok t') : SameHierarchy t t' := by
  unfold autoAllocate at h
  split at h
  · cases h
    exact .refl t
  · split at h
    · cases h
      exact ⟨rfl, rfl, rfl, rfl, rfl⟩
    · cases h
    · cases h
      exact .refl t

theorem sameHierarchy_autoDelete (t : TopologyImpl) (isInput : Bool) (port : Port) :
    SameHierarchy t (autoDelete o t isInput port) := by
  unfold autoDelete
  split
  · exact .refl t
  · exact ⟨rfl, rfl, rfl, rfl, rfl⟩

/-- The ports that a `disconnect` deletes. -/
theorem sameHierarchy_autoDelete_both (o : Objects) (t : TopologyImpl) (flow : Flow) :
    SameHierarchy t (autoDelete o (autoDelete o t false flow.src) true flow.dst) :=
  (sameHierarchy_autoDelete t false flow.src).trans (sameHierarchy_autoDelete _ true flow.dst)

theorem sameHierarchy_autoAllocateFlow {t t' : TopologyImpl} {flow : Flow}
    (h : autoAllocateFlow o t flow = .ok t') : SameHierarchy t t' := by
  unfold autoAllocateFlow at h
  cases hsrc : autoAllocate o t false flow.src with
  | error e =>
      rw [hsrc] at h
      cases h
  | ok t₁ =>
      rw [hsrc] at h
      exact (sameHierarchy_autoAllocate hsrc).trans (sameHierarchy_autoAllocate h)

theorem sameHierarchy_autoDeleteFlows (t : TopologyImpl) (flows : List Flow) :
    SameHierarchy t (autoDeleteFlows o t flows) := by
  induction flows generalizing t with
  | nil => exact .refl t
  | cons flow flows ih =>
      exact (sameHierarchy_autoDelete_both o t flow).trans (ih _)

theorem storePortInfo_flows (t : TopologyImpl) (flow : Flow) : (storePortInfo o t flow).flows = t.flows := by
  unfold storePortInfo
  split
  · split <;> rfl
  · split <;> rfl

/-- The ways a `connect` ends. -/
theorem connectFlow_cases (o : Objects) (t : TopologyImpl) (flow : Flow) :
    (∃ e, autoAllocateFlow o t flow = .error e ∧ connectFlow o t flow = (.error e, t)) ∨
    ∃ t', autoAllocateFlow o t flow = .ok t' ∧
      ((∃ e, validate o t' flow = .error e ∧ connectFlow o t flow = (.error e, t')) ∨
        validate o t' flow = .ok () ∧
          ((flow ∈ t.flows ∧ ∃ e, connectFlow o t flow = (.error e, storePortInfo o t' flow)) ∨
            (flow ∉ t.flows ∧ connectFlow o t flow =
              (.ok (), { storePortInfo o t' flow with flows := t.flows ++ [flow] })))) := by
  cases halloc : autoAllocateFlow o t flow with
  | error e =>
      refine .inl ⟨e, rfl, ?_⟩
      simp only [connectFlow, halloc]
  | ok t' =>
      refine .inr ⟨t', rfl, ?_⟩
      have hflows := (sameHierarchy_autoAllocateFlow halloc).flows
      cases hvalid : validate o t' flow with
      | error e =>
          refine .inl ⟨e, rfl, ?_⟩
          simp only [connectFlow, halloc, hvalid]
      | ok =>
          refine .inr ⟨rfl, ?_⟩
          by_cases hin : flow ∈ t.flows
          · refine .inl ⟨hin, ?_⟩
            simp only [connectFlow, halloc, hvalid, storePortInfo_flows, hflows, hin, if_true]
            exact ⟨_, rfl⟩
          · refine .inr ⟨hin, ?_⟩
            simp only [connectFlow, halloc, hvalid, storePortInfo_flows, hflows, hin, if_false]

/-- The ways a `disconnect` ends. -/
theorem disconnectFlow_cases (o : Objects) (t : TopologyImpl) (flow : Flow) :
    (∃ e, validateDisconnect o t flow = .error e ∧ disconnectFlow o t flow = (.error e, t)) ∨
    validateDisconnect o t flow = .ok () ∧
      ((flow ∉ t.flows ∧ ∃ e, disconnectFlow o t flow = (.error e, clearPortInfo o t flow)) ∨
        (flow ∈ t.flows ∧ disconnectFlow o t flow =
          (.ok (), { autoDelete o (autoDelete o (clearPortInfo o t flow) false flow.src) true flow.dst with
            flows := t.flows.erase flow }))) := by
  cases hvalid : validateDisconnect o t flow with
  | error e =>
      refine .inl ⟨e, rfl, ?_⟩
      simp only [disconnectFlow, hvalid]
  | ok =>
      refine .inr ⟨rfl, ?_⟩
      by_cases hin : flow ∈ t.flows
      · refine .inr ⟨hin, ?_⟩
        have hflows : (autoDelete o (autoDelete o (clearPortInfo o t flow) false flow.src) true flow.dst).flows =
            t.flows :=
          (sameHierarchy_autoDelete_both o (clearPortInfo o t flow) flow).flows
        simp only [disconnectFlow, hvalid, hflows]
        exact if_neg (not_not.mpr hin)
      · refine .inl ⟨hin, ?_⟩
        simp only [disconnectFlow, hvalid]
        exact ⟨_, if_pos hin⟩

/-! ### What a call that throws leaves -/

theorem not_hierarchical {flow : Flow} :
    ¬ Hierarchical o flow ↔ flow.src.uid ≠ o.self ∧ flow.dst.uid ≠ o.self := by
  simp [Hierarchical]

theorem storePortInfo_of_blocks {t : TopologyImpl} {flow : Flow} (h : ¬ Hierarchical o flow) :
    storePortInfo o t flow = t := by
  obtain ⟨hsrc, hdst⟩ := not_hierarchical.mp h
  rw [storePortInfo, if_neg hsrc, if_neg hdst]

theorem storePortInfo_inputPortNames (t : TopologyImpl) (flow : Flow) :
    (storePortInfo o t flow).inputPortNames =
      if flow.src.uid = o.self then t.inputPortNames ++ [flow.src.name] else t.inputPortNames := by
  unfold storePortInfo
  split
  · split <;> rfl
  · split <;> rfl

theorem storePortInfo_outputPortNames (t : TopologyImpl) (flow : Flow) :
    (storePortInfo o t flow).outputPortNames =
      if flow.dst.uid = o.self then t.outputPortNames ++ [flow.dst.name] else t.outputPortNames := by
  unfold storePortInfo
  split
  · split <;> rfl
  · split <;> rfl

/-- With the topology as an end, `storePortInfo` leaves a longer list of names. -/
theorem not_same_storePortInfo {t : TopologyImpl} {flow : Flow} (h : Hierarchical o flow) :
    ¬ SameHierarchy t (storePortInfo o t flow) := by
  intro hsame
  rcases h with h | h
  · have hnames := hsame.inputPortNames
    rw [storePortInfo_inputPortNames, if_pos h] at hnames
    simp at hnames
  · have hnames := hsame.outputPortNames
    rw [storePortInfo_outputPortNames, if_pos h] at hnames
    simp at hnames

theorem connectFlow_same_iff {t : TopologyImpl} {flow : Flow} {e : Fault}
    (h : (connectFlow o t flow).1 = .error e) :
    SameHierarchy t (connectFlow o t flow).2 ↔ ¬ Repeats o t flow := by
  rcases connectFlow_cases o t flow with ⟨e', halloc, hcall⟩ | ⟨t', halloc, ⟨e', hvalid, hcall⟩ |
    ⟨hvalid, ⟨hin, e', hcall⟩ | ⟨hin, hcall⟩⟩⟩
  · rw [hcall]
    refine iff_of_true (.refl t) ?_
    rintro ⟨-, -, t', halloc', -⟩
    rw [halloc] at halloc'
    cases halloc'
  · rw [hcall]
    refine iff_of_true (sameHierarchy_autoAllocateFlow halloc) ?_
    rintro ⟨-, -, t'', halloc', hvalid'⟩
    obtain rfl := Except.ok.inj (halloc.symm.trans halloc')
    rw [hvalid] at hvalid'
    cases hvalid'
  · rw [hcall]
    have hsame := sameHierarchy_autoAllocateFlow halloc
    by_cases hhier : Hierarchical o flow
    · refine iff_of_false (fun hall => ?_) (fun hnot => hnot ⟨hhier, hin, t', halloc, hvalid⟩)
      exact not_same_storePortInfo hhier (hsame.symm.trans hall)
    · refine iff_of_true ?_ (fun hrepeat => hhier hrepeat.1)
      rw [storePortInfo_of_blocks hhier]
      exact hsame
  · rw [hcall] at h
    cases h

theorem mem_of_mem_reported {names : List String} {infos : String → Option PortInfo} {out : List String}
    (h : (reportedInfos names infos).map (·.map (·.name)) = .ok out) {name : String} :
    name ∈ out ↔ name ∈ names := by
  cases hinfos : reportedInfos names infos with
  | error e =>
      rw [hinfos] at h
      cases h
  | ok infos' =>
      obtain ⟨infos'', hok, hnames⟩ := reportedInfos_ok (named_of_reportedInfos hinfos)
      obtain rfl := Except.ok.inj (hinfos.symm.trans hok)
      rw [hinfos] at h
      obtain rfl := Except.ok.inj h
      show name ∈ infos'.map (·.name) ↔ name ∈ names
      rw [hnames, List.mem_eraseDups]

/-- What a successful validation found, of an end that is the topology. -/
theorem mem_of_validateDisconnect {t : TopologyImpl} {flow : Flow}
    (h : validateDisconnect o t flow = .ok ()) :
    (flow.src.uid = o.self → flow.src.name ∈ t.outputPortNames) ∧
      (flow.dst.uid = o.self → flow.dst.name ∈ t.inputPortNames) := by
  unfold validateDisconnect at h
  cases houts : portNames o t false flow.src.uid with
  | error e => simp only [houts] at h; cases h
  | ok outs =>
      simp only [houts] at h
      split at h
      · cases h
      next hsrc =>
        cases hins : portNames o t true flow.dst.uid with
        | error e => simp only [hins] at h; cases h
        | ok ins =>
            simp only [hins] at h
            split at h
            · cases h
            next hdst =>
              refine ⟨fun hself => ?_, fun hself => ?_⟩
              · rw [portNames, if_pos hself] at houts
                exact (mem_of_mem_reported houts).mp (not_not.mp hsrc)
              · rw [portNames, if_pos hself] at hins
                exact (mem_of_mem_reported hins).mp (not_not.mp hdst)

theorem clearPortInfo_of_blocks {t : TopologyImpl} {flow : Flow} (h : ¬ Hierarchical o flow) :
    clearPortInfo o t flow = t := by
  obtain ⟨hsrc, hdst⟩ := not_hierarchical.mp h
  rw [clearPortInfo, if_neg hsrc, if_neg hdst]

theorem erase_ne_self {names : List String} {name : String} (h : name ∈ names) : names.erase name ≠ names := by
  intro heq
  have hlength := List.length_erase_of_mem h
  have hpos := List.length_pos_of_mem h
  rw [heq] at hlength
  omega

/-- With the topology as an end, `clearPortInfo` takes a name away. -/
theorem not_same_clearPortInfo {t : TopologyImpl} {flow : Flow} (h : Misdirected o t flow) :
    ¬ SameHierarchy t (clearPortInfo o t flow) := by
  obtain ⟨hhier, hvalid⟩ := h
  obtain ⟨hsrc, hdst⟩ := mem_of_validateDisconnect hvalid
  intro hsame
  rcases hhier with hself | hself
  · have hnames := hsame.outputPortNames
    simp only [clearPortInfo, hself, if_true] at hnames
    exact erase_ne_self (hsrc hself) hnames
  · have hnames := hsame.inputPortNames
    simp only [clearPortInfo, hself, if_true] at hnames
    exact erase_ne_self (hdst hself) hnames

theorem disconnectFlow_same_iff {t : TopologyImpl} {flow : Flow} {e : Fault}
    (h : (disconnectFlow o t flow).1 = .error e) :
    SameHierarchy t (disconnectFlow o t flow).2 ↔ ¬ Misdirected o t flow := by
  rcases disconnectFlow_cases o t flow with ⟨e', hvalid, hcall⟩ | ⟨hvalid, ⟨hin, e', hcall⟩ | ⟨hin, hcall⟩⟩
  · rw [hcall]
    refine iff_of_true (.refl t) ?_
    rintro ⟨-, hok⟩
    rw [hvalid] at hok
    cases hok
  · rw [hcall]
    by_cases hhier : Hierarchical o flow
    · exact iff_of_false (not_same_clearPortInfo ⟨hhier, hvalid⟩) (fun h => h ⟨hhier, hvalid⟩)
    · refine iff_of_true ?_ (fun h => hhier h.1)
      rw [clearPortInfo_of_blocks hhier]
      exact .refl t
  · rw [hcall] at h
    cases h

/-! ### Names and flows -/

theorem consistent_iff {t : TopologyImpl} : Consistent o t ↔
    (Named t.inputPortNames t.inputPortInfo ∧
      ∀ name, name ∈ t.inputPortNames ↔ ∃ flow ∈ t.flows, flow.src = ⟨o.self, name⟩) ∧
    (Named t.outputPortNames t.outputPortInfo ∧
      ∀ name, name ∈ t.outputPortNames ↔ ∃ flow ∈ t.flows, flow.dst = ⟨o.self, name⟩) := by
  rw [← reports_iff, ← reports_iff]
  exact ⟨fun h => ⟨h.inputs, h.outputs⟩, fun h => ⟨h.1, h.2⟩⟩

theorem Consistent.congr {s t : TopologyImpl} (hs : Consistent o s) (h : SameHierarchy s t) :
    Consistent o t := by
  refine ⟨?_, ?_⟩
  · rw [h.inputPortNames, h.inputPortInfo, h.flows]
    exact hs.inputs
  · rw [h.outputPortNames, h.outputPortInfo, h.flows]
    exact hs.outputs

theorem find?_of_mem_portNames {p : BlockPorts} {name : String} (h : name ∈ p.portNames) :
    ∃ port, p.find? name = some port := by
  obtain ⟨port, hport, rfl⟩ := List.mem_map.mp h
  cases hfind : p.find? port.name with
  | some port' => exact ⟨port', rfl⟩
  | none =>
      have hnone := List.find?_eq_none.mp hfind port hport
      simp at hnone

/-- What a successful validation found, of an end that is a block. -/
theorem mem_of_validate {t : TopologyImpl} {flow : Flow} (h : validate o t flow = .ok ()) :
    (flow.src.uid ≠ o.self → flow.src.name ∈ (t.ports (false, flow.src.uid)).portNames) ∧
      (flow.dst.uid ≠ o.self → flow.dst.name ∈ (t.ports (true, flow.dst.uid)).portNames) := by
  unfold validate at h
  split at h
  · cases h
  next hsrc =>
    split at h
    · cases h
    next hdst =>
      exact ⟨fun hne => by_contra fun hnot => hsrc ⟨hne, hnot⟩,
        fun hne => by_contra fun hnot => hdst ⟨hne, hnot⟩⟩

theorem infoOf_some {t : TopologyImpl} {isInput : Bool} {port : Port} {name : String}
    (h : port.name ∈ (t.ports (isInput, port.uid)).portNames) :
    ∃ info, infoOf t isInput port name = some info ∧ info.name = name := by
  obtain ⟨found, hfound⟩ := find?_of_mem_portNames h
  exact ⟨_, by rw [infoOf, hfound]; rfl, rfl⟩

theorem storePortInfo_inputPortInfo {t : TopologyImpl} {flow : Flow} (h : validate o t flow = .ok ())
    (hself : flow.src.uid = o.self) :
    ∃ info, info.name = flow.src.name ∧
      (storePortInfo o t flow).inputPortInfo = Function.update t.inputPortInfo flow.src.name (some info) := by
  rw [storePortInfo, if_pos hself]
  split
  next => exact ⟨{ (t.inputPortInfo flow.src.name).getD .empty with name := flow.src.name }, rfl, rfl⟩
  next hdst =>
    obtain ⟨info, hinfo, hname⟩ : ∃ info, infoOf t true flow.dst flow.src.name = some info ∧
        info.name = flow.src.name := infoOf_some ((mem_of_validate h).2 hdst)
    exact ⟨info, hname, by rw [hinfo]⟩

theorem storePortInfo_outputPortInfo {t : TopologyImpl} {flow : Flow} (h : validate o t flow = .ok ())
    (hself : flow.dst.uid = o.self) :
    ∃ info, info.name = flow.dst.name ∧
      (storePortInfo o t flow).outputPortInfo = Function.update t.outputPortInfo flow.dst.name (some info) := by
  rw [storePortInfo]
  by_cases hsrc : flow.src.uid = o.self
  · rw [if_pos hsrc, if_pos hself]
    exact ⟨{ (t.outputPortInfo flow.dst.name).getD .empty with name := flow.dst.name }, rfl, rfl⟩
  · rw [if_neg hsrc, if_pos hself]
    obtain ⟨info, hinfo, hname⟩ : ∃ info, infoOf t false flow.src flow.dst.name = some info ∧
        info.name = flow.dst.name := infoOf_some ((mem_of_validate h).1 hsrc)
    exact ⟨info, hname, by rw [hinfo]⟩

theorem storePortInfo_inputPortInfo_of_ne {t : TopologyImpl} {flow : Flow} (h : flow.src.uid ≠ o.self) :
    (storePortInfo o t flow).inputPortInfo = t.inputPortInfo := by
  rw [storePortInfo, if_neg h]
  split <;> rfl

theorem storePortInfo_outputPortInfo_of_ne {t : TopologyImpl} {flow : Flow} (h : flow.dst.uid ≠ o.self) :
    (storePortInfo o t flow).outputPortInfo = t.outputPortInfo := by
  simp only [storePortInfo, h, if_false]
  split <;> rfl

/-- **`connect` keeps names and flows in step.** -/
theorem Consistent.append {t t' : TopologyImpl} {flow : Flow} (ht : Consistent o t)
    (hsame : SameHierarchy t t') (hvalid : validate o t' flow = .ok ()) :
    Consistent o { storePortInfo o t' flow with flows := t.flows ++ [flow] } := by
  obtain ⟨⟨hnamedIn, hin⟩, hnamedOut, hout⟩ := consistent_iff.mp (ht.congr hsame)
  rw [hsame.flows] at hin hout
  refine consistent_iff.mpr ⟨?_, ?_⟩
  · by_cases hself : flow.src.uid = o.self
    · obtain ⟨info, hname, hinfo⟩ := storePortInfo_inputPortInfo hvalid hself
      simp only [storePortInfo_inputPortNames, hself, if_true, hinfo]
      refine ⟨hnamedIn.append hname, fun name => ?_⟩
      have hsrc : flow.src = ⟨o.self, name⟩ ↔ name = flow.src.name := by
        rw [← hself]
        exact ⟨fun h => (congrArg Port.name h).symm, fun h => h ▸ rfl⟩
      simp only [List.mem_append, List.mem_singleton, hin, or_and_right, exists_or, exists_eq_left, hsrc]
    · simp only [storePortInfo_inputPortNames, hself, if_false, storePortInfo_inputPortInfo_of_ne hself]
      refine ⟨hnamedIn, fun name => ?_⟩
      have hsrc : flow.src ≠ ⟨o.self, name⟩ := fun h => hself (congrArg Port.uid h)
      simp only [List.mem_append, List.mem_singleton, hin, or_and_right, exists_or, exists_eq_left, hsrc, or_false]
  · by_cases hself : flow.dst.uid = o.self
    · obtain ⟨info, hname, hinfo⟩ := storePortInfo_outputPortInfo hvalid hself
      simp only [storePortInfo_outputPortNames, hself, if_true, hinfo]
      refine ⟨hnamedOut.append hname, fun name => ?_⟩
      have hdst : flow.dst = ⟨o.self, name⟩ ↔ name = flow.dst.name := by
        rw [← hself]
        exact ⟨fun h => (congrArg Port.name h).symm, fun h => h ▸ rfl⟩
      simp only [List.mem_append, List.mem_singleton, hout, or_and_right, exists_or, exists_eq_left, hdst]
    · simp only [storePortInfo_outputPortNames, hself, if_false, storePortInfo_outputPortInfo_of_ne hself]
      refine ⟨hnamedOut, fun name => ?_⟩
      have hdst : flow.dst ≠ ⟨o.self, name⟩ := fun h => hself (congrArg Port.uid h)
      simp only [List.mem_append, List.mem_singleton, hout, or_and_right, exists_or, exists_eq_left, hdst, or_false]

/-- Giving up a flow between blocks changes no names. -/
theorem Consistent.erase {t : TopologyImpl} {flow : Flow} (ht : Consistent o t) (h : ¬ Hierarchical o flow) :
    Consistent o { t with flows := t.flows.erase flow } := by
  obtain ⟨⟨hnamedIn, hin⟩, hnamedOut, hout⟩ := consistent_iff.mp ht
  obtain ⟨hsrc, hdst⟩ := not_hierarchical.mp h
  have hkeep : ∀ f, f ≠ flow → (f ∈ t.flows.erase flow ↔ f ∈ t.flows) := fun f hf => List.mem_erase_of_ne hf
  refine consistent_iff.mpr ⟨⟨hnamedIn, fun name => ?_⟩, hnamedOut, fun name => ?_⟩
  · rw [hin]
    refine exists_congr fun f => and_congr_left fun hf => (hkeep f ?_).symm
    rintro rfl
    exact hsrc (congrArg Port.uid hf)
  · rw [hout]
    refine exists_congr fun f => and_congr_left fun hf => (hkeep f ?_).symm
    rintro rfl
    exact hdst (congrArg Port.uid hf)

theorem Consistent.connectFlow {t : TopologyImpl} {flow : Flow} (ht : Consistent o t)
    (hnot : ¬ Repeats o t flow) : Consistent o (connectFlow o t flow).2 := by
  rcases connectFlow_cases o t flow with ⟨e, -, hcall⟩ | ⟨t', halloc, ⟨e, -, hcall⟩ |
    ⟨hvalid, ⟨hin, e, hcall⟩ | ⟨hin, hcall⟩⟩⟩
  · exact ht.congr ((connectFlow_same_iff (congrArg Prod.fst hcall)).mpr hnot)
  · exact ht.congr ((connectFlow_same_iff (congrArg Prod.fst hcall)).mpr hnot)
  · exact ht.congr ((connectFlow_same_iff (congrArg Prod.fst hcall)).mpr hnot)
  · rw [hcall]
    exact ht.append (sameHierarchy_autoAllocateFlow halloc) hvalid

theorem Consistent.disconnectFlow {t : TopologyImpl} {flow : Flow} (ht : Consistent o t)
    (hnot : ¬ Misdirected o t flow) : Consistent o (disconnectFlow o t flow).2 := by
  rcases disconnectFlow_cases o t flow with ⟨e, -, hcall⟩ | ⟨hvalid, ⟨hin, e, hcall⟩ | ⟨hin, hcall⟩⟩
  · exact ht.congr ((disconnectFlow_same_iff (congrArg Prod.fst hcall)).mpr hnot)
  · exact ht.congr ((disconnectFlow_same_iff (congrArg Prod.fst hcall)).mpr hnot)
  · have hblocks : ¬ Hierarchical o flow := fun hhier => hnot ⟨hhier, hvalid⟩
    have hsame : SameHierarchy t
        (autoDelete o (autoDelete o (clearPortInfo o t flow) false flow.src) true flow.dst) := by
      rw [clearPortInfo_of_blocks hblocks]
      exact sameHierarchy_autoDelete_both o t flow
    rw [hcall, ← hsame.flows]
    exact (ht.congr hsame).erase hblocks

/-- **One call.** -/
theorem Consistent.step {t t' : TopologyImpl} {c : Call} (ht : Consistent o t) (hc : Sound o t c)
    (h : step o t c t') : Consistent o t' := by
  refine Consistent.congr ?_ h
  cases c with
  | connect src srcName dst dstName =>
      show Consistent o (connect o t src srcName dst dstName).2
      unfold connect
      cases hflow : Objects.makeFlow "Pothos::Topology::connect()" src srcName dst dstName with
      | error e => exact ht
      | ok flow => exact ht.connectFlow (hc flow hflow)
  | disconnect src srcName dst dstName =>
      show Consistent o (disconnect o t src srcName dst dstName).2
      unfold disconnect
      cases hflow : Objects.makeFlow "Pothos::Topology::disconnect()" src srcName dst dstName with
      | error e => exact ht
      | ok flow => exact ht.disconnectFlow (hc flow hflow)
  | disconnectAll =>
      have hsame := sameHierarchy_autoDeleteFlows (o := o) t t.flows
      obtain ⟨⟨hnamedIn, hin⟩, hnamedOut, hout⟩ := consistent_iff.mp (ht.congr hsame)
      rw [hsame.flows] at hin hout
      refine consistent_iff.mpr ⟨⟨hnamedIn, fun name => ?_⟩, hnamedOut, fun name => ?_⟩
      · refine (hin name).trans (iff_of_false ?_ (fun ⟨f, hf, _⟩ => by cases hf))
        rintro ⟨f, hf, hsrc⟩
        exact hc f hf (.inl (congrArg Port.uid hsrc))
      · refine (hout name).trans (iff_of_false ?_ (fun ⟨f, hf, _⟩ => by cases hf))
        rintro ⟨f, hf, hdst⟩
        exact hc f hf (.inr (congrArg Port.uid hdst))

/-! ### Connecting and disconnecting again -/

theorem name_eq_of_erase {names : List String} {x y : String} (h : (names ++ [x]).erase y = names) : y = x := by
  by_contra hne
  have hcount := congrArg (List.count x) h
  rw [List.count_erase_of_ne (fun he => hne he.symm)] at hcount
  simp at hcount

theorem update_named {infos : String → Option PortInfo} {x : String} (h : Named [x] infos) :
    Function.update infos x (some { (infos x).getD .empty with name := x }) = infos := by
  obtain ⟨info, hinfo, hname⟩ := h x (List.mem_singleton_self x)
  refine Function.update_eq_self_iff.mpr ?_
  rw [hinfo, Option.getD_some, ← hname]

theorem named_of_update {infos : String → Option PortInfo} {x : String} {info : PortInfo} (hname : info.name = x)
    (h : Function.update infos x (some info) = infos) : Named [x] infos := by
  intro name hx
  obtain rfl := List.mem_singleton.mp hx
  exact ⟨info, (Function.update_eq_self_iff.mp h).symm, hname⟩

/-- After a `connect` between blocks, or through the topology under one name, the ports
are found again. -/
theorem validateDisconnect_of_restores {t t' : TopologyImpl} {flow : Flow} (ht : Consistent o t)
    (hsame : SameHierarchy t t') (hvalid : validate o t' flow = .ok ())
    (h : ¬ Hierarchical o flow ∨ PassesUnder o t flow) :
    validateDisconnect o { storePortInfo o t' flow with flows := t.flows ++ [flow] } flow = .ok () := by
  rcases h with hblocks | ⟨hsrc, hdst, hname, -⟩
  · obtain ⟨hsrc, hdst⟩ := not_hierarchical.mp hblocks
    have hfound := mem_of_validate hvalid
    rw [validateDisconnect, portNames, if_neg hsrc, portNames, if_neg hdst, storePortInfo_of_blocks hblocks]
    simp only [hfound.1 hsrc, hfound.2 hdst, not_true_eq_false, if_false]
  · have hnew := ht.append hsame hvalid
    obtain ⟨⟨hnamedIn, -⟩, hnamedOut, -⟩ := consistent_iff.mp hnew
    obtain ⟨ins, hins, hinNames⟩ := reportedInfos_ok hnamedIn
    obtain ⟨outs, houts, houtNames⟩ := reportedInfos_ok hnamedOut
    have hsrcIn : flow.src.name ∈ outs.map (·.name) := by
      rw [houtNames, List.mem_eraseDups]
      simp [storePortInfo_outputPortNames, hdst, hname]
    have hdstIn : flow.dst.name ∈ ins.map (·.name) := by
      rw [hinNames, List.mem_eraseDups]
      simp [storePortInfo_inputPortNames, hsrc, hname]
    rw [validateDisconnect, portNames, if_pos hsrc, portNames, if_pos hdst]
    simp only [Bool.false_eq_true, if_false, if_true, hins, houts, Except.map, hsrcIn, hdstIn,
      not_true_eq_false]

/-- A name that is appended is taken away again if there is no other behind it. -/
theorem erase_append_self_iff {name : String} {names : List String} :
    (names ++ [name]).erase name = names ↔ EndsIn name names := by
  constructor
  · intro h
    induction names with
    | nil => exact ⟨[], 0, by simp, rfl⟩
    | cons x names ih =>
        by_cases hx : x = name
        · -- the names behind the first occurrence have moved up by one
          subst hx
          rw [List.cons_append, List.erase_cons_head] at h
          have hall : ∀ y ∈ names, y = x := by
            clear ih
            induction names with
            | nil => simp
            | cons y names ih =>
                rw [List.cons_append, List.cons.injEq] at h
                obtain ⟨rfl, h⟩ := h
                simpa using ih h
          refine ⟨[], names.length + 1, by simp, ?_⟩
          rw [List.nil_append, List.replicate_succ, ← List.eq_replicate_of_mem hall]
        · rw [List.cons_append, List.erase_cons_tail (by simpa using hx), List.cons.injEq] at h
          obtain ⟨before, n, hnot, hnames⟩ := ih h.2
          exact ⟨x :: before, n, by simp [hnot, Ne.symm hx], by simp [hnames]⟩
  · rintro ⟨before, n, hnot, rfl⟩
    rw [List.append_assoc, List.erase_append_right _ hnot]
    cases n with
    | zero => simp
    | succ n =>
        rw [List.replicate_succ, List.cons_append, List.erase_cons_head, ← List.replicate_succ', List.replicate_succ]

/-- What is left after a `disconnect` of the flow connected last. -/
theorem sameHierarchy_restored_iff {t t' : TopologyImpl} {flow : Flow} (hsame : SameHierarchy t t')
    (hvalid : validate o t' flow = .ok ()) (hin : flow ∉ t.flows) :
    SameHierarchy t { clearPortInfo o (storePortInfo o t' flow) flow with
      flows := (t.flows ++ [flow]).erase flow } ↔ ¬ Hierarchical o flow ∨ PassesUnder o t flow := by
  constructor
  · intro h
    by_cases hhier : Hierarchical o flow
    · right
      have hins := h.inputPortNames
      have houts := h.outputPortNames
      simp only [clearPortInfo, storePortInfo_inputPortNames, storePortInfo_outputPortNames,
        hsame.inputPortNames, hsame.outputPortNames] at hins houts
      have hsrc : flow.src.uid = o.self := by
        by_contra hne
        simp [hne, hhier.resolve_left hne] at houts
      have hdst : flow.dst.uid = o.self := by
        by_contra hne
        simp [hne, hsrc] at hins
      simp only [hsrc, hdst, if_true] at hins houts
      have hname := name_eq_of_erase houts
      obtain ⟨info, hinfo, hupdate⟩ := storePortInfo_inputPortInfo hvalid hsrc
      obtain ⟨info', hinfo', hupdate'⟩ := storePortInfo_outputPortInfo hvalid hdst
      have hins' := h.inputPortInfo
      have houts' := h.outputPortInfo
      simp only [clearPortInfo, hupdate, hupdate', hsame.inputPortInfo, hsame.outputPortInfo] at hins' houts'
      refine ⟨hsrc, hdst, hname, ?_, ?_, named_of_update hinfo hins', named_of_update hinfo' houts'⟩
      · rw [← hname] at hins
        exact erase_append_self_iff.mp hins
      · rw [hname] at houts
        exact erase_append_self_iff.mp houts
    · exact .inl hhier
  · have hflows : (t.flows ++ [flow]).erase flow = t.flows := by
      rw [List.erase_append_right _ hin]
      simp
    rintro (hblocks | ⟨hsrc, hdst, hname, hins, houts, hnamedIn, hnamedOut⟩)
    · rw [storePortInfo_of_blocks hblocks, clearPortInfo_of_blocks hblocks]
      exact ⟨hflows, hsame.inputPortNames, hsame.outputPortNames, hsame.inputPortInfo, hsame.outputPortInfo⟩
    · rw [storePortInfo, if_pos hsrc, if_pos hdst]
      refine ⟨hflows, ?_, ?_, ?_, ?_⟩
      · simp only [clearPortInfo, hdst, if_true, hsame.inputPortNames]
        rw [← hname, erase_append_self_iff.mpr hins]
      · simp only [clearPortInfo, hsrc, if_true, hsame.outputPortNames]
        rw [hname, erase_append_self_iff.mpr houts]
      · simp only [clearPortInfo, hsame.inputPortInfo]
        exact update_named hnamedIn
      · simp only [clearPortInfo, hsame.outputPortInfo]
        exact update_named hnamedOut

/-- **A `connect` and its `disconnect`.** -/
theorem restores_iff {t : TopologyImpl} {flow : Flow} (ht : Consistent o t)
    (hok : (connectFlow o t flow).1 = .ok ()) :
    ((disconnectFlow o (connectFlow o t flow).2 flow).1 = .ok () ∧
        SameHierarchy t (disconnectFlow o (connectFlow o t flow).2 flow).2) ↔
      ¬ Hierarchical o flow ∨ PassesUnder o t flow := by
  rcases connectFlow_cases o t flow with ⟨e, -, hcall⟩ | ⟨t', halloc, ⟨e, -, hcall⟩ |
    ⟨hvalid, ⟨-, e, hcall⟩ | ⟨hin, hcall⟩⟩⟩
  · rw [hcall] at hok
    cases hok
  · rw [hcall] at hok
    cases hok
  · rw [hcall] at hok
    cases hok
  · have hsame := sameHierarchy_autoAllocateFlow halloc
    rw [hcall]
    rcases disconnectFlow_cases o { storePortInfo o t' flow with flows := t.flows ++ [flow] } flow with
      ⟨e, hfails, hcall'⟩ | ⟨-, ⟨hnot, -⟩ | ⟨-, hcall'⟩⟩
    · rw [hcall']
      refine iff_of_false (fun h => by cases h.1) (fun h => ?_)
      rw [validateDisconnect_of_restores ht hsame hvalid h] at hfails
      cases hfails
    · exact absurd (List.mem_append_right _ (List.mem_singleton_self flow)) hnot
    · rw [hcall', ← sameHierarchy_restored_iff hsame hvalid hin]
      have hdelete := sameHierarchy_autoDelete_both o (clearPortInfo o
        { storePortInfo o t' flow with flows := t.flows ++ [flow] } flow) flow
      constructor
      · rintro ⟨-, h⟩
        exact ⟨h.flows, hdelete.inputPortNames.symm.trans h.inputPortNames,
          hdelete.outputPortNames.symm.trans h.outputPortNames,
          hdelete.inputPortInfo.symm.trans h.inputPortInfo,
          hdelete.outputPortInfo.symm.trans h.outputPortInfo⟩
      · intro h
        exact ⟨rfl, h.flows, hdelete.inputPortNames.trans h.inputPortNames,
          hdelete.outputPortNames.trans h.outputPortNames,
          hdelete.inputPortInfo.trans h.inputPortInfo,
          hdelete.outputPortInfo.trans h.outputPortInfo⟩

/-! ### Runs -/

theorem consistent_start (o : Objects) (ports : Bool × String → BlockPorts) : Consistent o (start ports) := by
  refine consistent_iff.mpr ⟨⟨?_, ?_⟩, ?_, ?_⟩
  · intro name hname
    cases hname
  · intro name
    exact iff_of_false (fun h => by cases h) (fun ⟨_, h, _⟩ => by cases h)
  · intro name hname
    cases hname
  · intro name
    exact iff_of_false (fun h => by cases h) (fun ⟨_, h, _⟩ => by cases h)

/-- A call that throws leaves all as it was exactly if it was sound. -/
theorem same_iff_sound {t : TopologyImpl} {c : Call} {e : Fault} (h : (call o t c).1 = .error e) :
    SameHierarchy t (call o t c).2 ↔ Sound o t c := by
  cases c with
  | connect src srcName dst dstName =>
      have hcall : call o t (.connect src srcName dst dstName) = connect o t src srcName dst dstName := rfl
      rw [hcall] at h ⊢
      simp only [Sound]
      unfold connect at h ⊢
      cases hflow : Objects.makeFlow "Pothos::Topology::connect()" src srcName dst dstName with
      | error e' =>
          simp only [reduceCtorEq, false_implies, implies_true, iff_true]
          exact .refl t
      | ok flow =>
          rw [hflow] at h
          simp only [Except.ok.injEq, forall_eq']
          exact connectFlow_same_iff h
  | disconnect src srcName dst dstName =>
      have hcall : call o t (.disconnect src srcName dst dstName) = disconnect o t src srcName dst dstName := rfl
      rw [hcall] at h ⊢
      simp only [Sound]
      unfold disconnect at h ⊢
      cases hflow : Objects.makeFlow "Pothos::Topology::disconnect()" src srcName dst dstName with
      | error e' =>
          simp only [reduceCtorEq, false_implies, implies_true, iff_true]
          exact .refl t
      | ok flow =>
          rw [hflow] at h
          simp only [Except.ok.injEq, forall_eq']
          exact disconnectFlow_same_iff h
  | disconnectAll => cases h

/-- **Names and flows over a run of calls.** As long as all calls are sound, the reported
names are those of the flows; the next call that throws leaves all as it was exactly if it
is sound; and a flow can be disconnected again exactly if it is one between blocks, or
passes through the topology under one name that is known. -/
theorem hierarchy_consistent {ports : Bool × String → BlockPorts} {calls : List Call} {t : TopologyImpl}
    (hrun : Exec (restrict (step o) (Sound o)) (start ports) calls t) :
    Consistent o t ∧
      (∀ c e, (call o t c).1 = .error e → (SameHierarchy t (call o t c).2 ↔ Sound o t c)) ∧
      ∀ flow, (call o t (.connectFlow flow)).1 = .ok () →
        (((call o (call o t (.connectFlow flow)).2 (.disconnectFlow flow)).1 = .ok () ∧
            SameHierarchy t (call o (call o t (.connectFlow flow)).2 (.disconnectFlow flow)).2) ↔
          ¬ Hierarchical o flow ∨ PassesUnder o t flow) := by
  have hinv : Consistent o t :=
    hrun.invariant (fun s c s' hs hstep => hs.step hstep.2 hstep.1) (consistent_start o ports)
  exact ⟨hinv, fun c e h => same_iff_sound h, fun flow hok => restores_iff hinv hok⟩

/-- Block `a` has an input, block `b` an output. -/
def oneInputOneOutput (key : Bool × String) : BlockPorts :=
  if key = (true, "a") ∨ key = (false, "b") then
    ⟨[⟨"0", some 0, false, DType.unspecified, "", false⟩], fun i => if i = 0 then some "0" else none⟩
  else ⟨[], fun _ => none⟩

/-- A topology `self`. -/
def selfObjects : Objects := ⟨"self", fun uid => uid⟩

/-- A topology around both blocks, with a port in and a port out. -/
theorem hierarchy_consistent_both : ∃ t,
    Exec (restrict (step selfObjects) (Sound selfObjects)) (start oneInputOneOutput)
      [.connectFlow ⟨⟨"self", "in"⟩, ⟨"a", "0"⟩⟩, .connectFlow ⟨⟨"b", "0"⟩, ⟨"self", "out"⟩⟩] t ∧
      t.inputPortNames = ["in"] ∧ t.outputPortNames = ["out"] ∧ Consistent selfObjects t := by
  let first := (call selfObjects (start oneInputOneOutput) (.connectFlow ⟨⟨"self", "in"⟩, ⟨"a", "0"⟩⟩)).2
  let second := (call selfObjects first (.connectFlow ⟨⟨"b", "0"⟩, ⟨"self", "out"⟩⟩)).2
  have hfirst : Sound selfObjects (start oneInputOneOutput) (.connectFlow ⟨⟨"self", "in"⟩, ⟨"a", "0"⟩⟩) := by
    rintro flow - ⟨-, hin, -⟩
    cases hin
  have hsecond : Sound selfObjects first (.connectFlow ⟨⟨"b", "0"⟩, ⟨"self", "out"⟩⟩) := by
    rintro flow hflow ⟨-, hin, -⟩
    obtain rfl := Except.ok.inj hflow
    have hnot : (⟨⟨"b", "0"⟩, ⟨"self", "out"⟩⟩ : Flow) ∉ first.flows := by decide +kernel
    exact hnot hin
  have hrun : Exec (restrict (step selfObjects) (Sound selfObjects)) (start oneInputOneOutput)
      [.connectFlow ⟨⟨"self", "in"⟩, ⟨"a", "0"⟩⟩, .connectFlow ⟨⟨"b", "0"⟩, ⟨"self", "out"⟩⟩] second :=
    .cons ⟨.refl _, hfirst⟩ (.cons ⟨.refl _, hsecond⟩ (.nil _))
  exact ⟨second, hrun, by decide +kernel, by decide +kernel, (hierarchy_consistent hrun).1⟩

/-- The input port of the topology is looked for among its output ports. -/
theorem not_hierarchy_restored :
    ¬ ∀ (o : Objects) (ports : Bool × String → BlockPorts) (calls : List Call) (t : TopologyImpl),
      Exec (step o) (start ports) calls t →
        Consistent o t ∧
          (∀ c e, (call o t c).1 = .error e → SameHierarchy t (call o t c).2) ∧
          ∀ flow, (call o t (.connectFlow flow)).1 = .ok () →
            (call o (call o t (.connectFlow flow)).2 (.disconnectFlow flow)).1 = .ok () ∧
              SameHierarchy t (call o (call o t (.connectFlow flow)).2 (.disconnectFlow flow)).2 := by
  intro h
  obtain ⟨-, -, hrestored⟩ := h selfObjects oneInputOneOutput [] _ (.nil _)
  have hconnect : (call selfObjects (start oneInputOneOutput)
      (.connectFlow ⟨⟨"self", "in"⟩, ⟨"a", "0"⟩⟩)).1.toOption = some () := by decide +kernel
  have hdisconnect : (call selfObjects (call selfObjects (start oneInputOneOutput)
      (.connectFlow ⟨⟨"self", "in"⟩, ⟨"a", "0"⟩⟩)).2
        (.disconnectFlow ⟨⟨"self", "in"⟩, ⟨"a", "0"⟩⟩)).1.toOption = none := by decide +kernel
  have hok : (call selfObjects (start oneInputOneOutput)
      (.connectFlow ⟨⟨"self", "in"⟩, ⟨"a", "0"⟩⟩)).1 = .ok () := by
    cases hresult : (call selfObjects (start oneInputOneOutput)
        (.connectFlow ⟨⟨"self", "in"⟩, ⟨"a", "0"⟩⟩)).1 with
    | error e => rw [hresult] at hconnect; cases hconnect
    | ok => rfl
  rw [(hrestored _ hok).1] at hdisconnect
  cases hdisconnect

end TopologyImpl

end PothosCore.Framework
