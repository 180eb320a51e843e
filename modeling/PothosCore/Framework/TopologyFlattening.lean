import PothosCore.Framework.TopologySquashFlows
import PothosCore.Lib.Paths

/-!
# PothosCore.Framework.TopologyFlattening

What the flattening of a hierarchy connects, against the paths of the hierarchy.

A path goes along flows, and at the port of a topology over to the other side of it.
Between pass-throughs it climbs out of topologies, takes one flow between two objects,
and descends; the ends of the climb and of the descent are what `resolvePorts` finds.
So the flows between blocks are the unbroken paths. Those with a null end stand for paths
that go on at a pass-through, and `completePassThroughFlows` joins them three at a time.
-/

namespace PothosCore.Framework

open PothosCore.Lib

namespace ObjFlow

/-- The end of the flow that is followed to a source, or to a destination. -/
def near (isSource : Bool) (flow : ObjFlow) : ObjPort := if isSource then flow.src else flow.dst

/-- The other end. -/
def far (isSource : Bool) (flow : ObjFlow) : ObjPort := if isSource then flow.dst else flow.src

end ObjFlow

/-- The port of a topology, from the side of the topology that it is in. -/
def ObjPort.outside (x : ObjPort) : ObjPort := ⟨x.port, true⟩

/-- The port of a topology, from within. -/
def ObjPort.inner (x : ObjPort) : ObjPort := ⟨x.port, false⟩

/-- The two sides of a port. -/
def Linked (x y : ObjPort) : Prop := x.port = y.port ∧ x.obj ≠ y.obj

namespace Hierarchy

variable (h : Hierarchy)

/-- The topology `top` and the objects in it, to any depth. -/
inductive Within (top : String) : String → Prop
  | top : Within top top
  | obj {t : String} {l : List ObjFlow} {flow : ObjFlow} (isSource : Bool) :
      Within top t → h.inside t = some l → flow ∈ l → (flow.near isSource).obj = true →
      Within top (flow.near isSource).port.uid

/-- A flow of a topology within `top`. -/
def Edge (top : String) (x y : ObjPort) : Prop :=
  ∃ t l, h.Within top t ∧ h.inside t = some l ∧ (⟨x, y⟩ : ObjFlow) ∈ l

/-- A flow from an input of a topology to an output of it. -/
def PassThrough (top : String) (x y : ObjPort) : Prop :=
  h.Edge top x y ∧ x.obj = false ∧ y.obj = false

/-- A flow that is no pass-through. -/
def Carried (top : String) (x y : ObjPort) : Prop :=
  h.Edge top x y ∧ (x.obj = true ∨ y.obj = true)

/-- **A path of the hierarchy.** -/
def Path (top : String) : ObjPort → ObjPort → Prop := Joined Linked (h.Edge top)

/-- A path without a pass-through. -/
def Unbroken (top : String) : ObjPort → ObjPort → Prop := Joined Linked (h.Carried top)

/-- A port of a block, not of a topology. -/
def BlockPort (x : ObjPort) : Prop := x.obj = true ∧ h.inside x.port.uid = none

instance (x : ObjPort) : Decidable (h.BlockPort x) := inferInstanceAs (Decidable (_ ∧ _))

/-- From the outside of a port through the topologies around its sources, or around its
destinations. -/
inductive Leads (isSource : Bool) : ObjPort → ObjPort → Prop
  | refl (x : ObjPort) : Leads isSource x x
  | inner {x p : ObjPort} {l : List ObjFlow} {flow : ObjFlow} :
      h.inside x.port.uid = some l → flow ∈ l → flow.far isSource = x.inner →
      (flow.near isSource).obj = true → Leads isSource (flow.near isSource) p → Leads isSource x p

/-- What `resolvePorts` finds: a port of a block, or the far end of a pass-through. -/
def Resolved (isSource : Bool) (x p : ObjPort) : Prop :=
  (h.Leads isSource x p ∧ h.BlockPort p) ∨
    ∃ q l flow, h.Leads isSource x q ∧ h.inside q.port.uid = some l ∧ flow ∈ l ∧
      flow.far isSource = q.inner ∧ flow.near isSource = p ∧ p.obj = false

variable {h}

/-! ### Flows of a topology -/

theorem within_obj {self : String} {port : Port} : (port.within self).obj = true ↔ port.uid ≠ self := by
  simp [Port.within]

theorem within_obj_false {self : String} {port : Port} : (port.within self).obj = false ↔ port.uid = self := by
  simp [Port.within]

theorem mem_inside {t : String} {l : List ObjFlow} (hl : h.inside t = some l) {flow : ObjFlow} (hmem : flow ∈ l) :
    ∃ fs f, h.flows t = some fs ∧ f ∈ fs ∧ flow = f.within t := by
  unfold inside at hl
  cases hfs : h.flows t with
  | none => simp [hfs] at hl
  | some fs =>
      simp only [hfs, Option.map_some, Option.some.injEq] at hl
      subst hl
      obtain ⟨f, hf, rfl⟩ := List.mem_map.mp hmem
      exact ⟨fs, f, rfl, hf, rfl⟩

/-- A null port is the topology's own. -/
theorem uid_of_null {t : String} {l : List ObjFlow} (hl : h.inside t = some l) {flow : ObjFlow} (hmem : flow ∈ l)
    (isSource : Bool) (hnull : (flow.near isSource).obj = false) : (flow.near isSource).port.uid = t := by
  obtain ⟨fs, f, -, -, rfl⟩ := mem_inside hl hmem
  cases isSource with
  | true => exact within_obj_false.mp hnull
  | false => exact within_obj_false.mp hnull

/-- The objects in a topology lie below it. -/
theorem height_lt {t : String} {l : List ObjFlow} (hl : h.inside t = some l) {flow : ObjFlow} (hmem : flow ∈ l)
    {isSource : Bool} (hobj : (flow.near isSource).obj = true) :
    h.height (flow.near isSource).port.uid < h.height t := by
  obtain ⟨fs, f, hfs, hf, rfl⟩ := mem_inside hl hmem
  have hbelow := h.below t fs hfs f hf
  cases isSource with
  | true => exact hbelow.1 (within_obj.mp hobj)
  | false => exact hbelow.2 (within_obj.mp hobj)

theorem far_eq_near (isSource : Bool) (flow : ObjFlow) : flow.far isSource = flow.near !isSource := by
  cases isSource <;> rfl

theorem BlockPort.obj {p : ObjPort} (hp : h.BlockPort p) : p.obj = true := hp.1

/-! ### What `resolvePorts` finds -/

theorem mem_resolvePortsFromTopology {resolve : ObjPort → List ObjPort} {flows : List ObjFlow} {portName : String}
    {isSource : Bool} {p : ObjPort} :
    p ∈ resolvePortsFromTopology resolve flows portName isSource ↔
      ∃ flow ∈ flows, (flow.far isSource).port.name = portName ∧ (flow.far isSource).obj = false ∧
        if (flow.near isSource).obj = true then p ∈ resolve (flow.near isSource) else p = flow.near isSource := by
  unfold resolvePortsFromTopology
  rw [List.mem_flatMap]
  refine exists_congr fun flow => and_congr_right fun _ => ?_
  cases isSource with
  | true =>
      by_cases hfar : flow.dst.port.name = portName ∧ ¬ flow.dst.obj = true
      · cases hobj : flow.src.obj <;> simp_all [ObjFlow.near, ObjFlow.far]
      · simp only [if_true, hfar, if_false, List.not_mem_nil, false_iff]
        exact fun hmem => hfar ⟨hmem.1, by simp [show flow.dst.obj = false from hmem.2.1]⟩
  | false =>
      by_cases hfar : flow.src.port.name = portName ∧ ¬ flow.src.obj = true
      · cases hobj : flow.dst.obj <;> simp_all [ObjFlow.near, ObjFlow.far]
      · simp only [Bool.false_eq_true, hfar, if_false, List.not_mem_nil, false_iff]
        exact fun hmem => hfar ⟨hmem.1, by simp [show flow.src.obj = false from hmem.2.1]⟩

/-- The far end of a flow in the topology of `x` is the inner side of `x`. -/
theorem far_eq_inner_iff {x : ObjPort} {l : List ObjFlow} (hl : h.inside x.port.uid = some l) {flow : ObjFlow}
    (hmem : flow ∈ l) (isSource : Bool) :
    ((flow.far isSource).port.name = x.port.name ∧ (flow.far isSource).obj = false) ↔ flow.far isSource = x.inner := by
  constructor
  · rintro ⟨hname, hnull⟩
    rw [far_eq_near] at hname hnull ⊢
    have huid := uid_of_null hl hmem _ hnull
    generalize flow.near (!isSource) = y at hname hnull huid
    obtain ⟨⟨uid, name⟩, obj⟩ := y
    simp only at hname hnull huid
    rw [ObjPort.inner, hname, hnull, huid]
  · intro hfar
    rw [hfar]
    exact ⟨rfl, rfl⟩

theorem Leads.trans {isSource : Bool} {x y z : ObjPort} (hxy : h.Leads isSource x y) (hyz : h.Leads isSource y z) :
    h.Leads isSource x z := by
  induction hxy with
  | refl => exact hyz
  | inner hl hmem hfar hobj _ ih => exact .inner hl hmem hfar hobj (ih hyz)

/-- One more topology at the end. -/
theorem Leads.snoc {isSource : Bool} {x y : ObjPort} (hxy : h.Leads isSource x y) {l : List ObjFlow} {flow : ObjFlow}
    (hl : h.inside y.port.uid = some l) (hmem : flow ∈ l) (hfar : flow.far isSource = y.inner)
    (hobj : (flow.near isSource).obj = true) : h.Leads isSource x (flow.near isSource) :=
  hxy.trans (.inner hl hmem hfar hobj (.refl _))

theorem Leads.obj {isSource : Bool} {x y : ObjPort} (hxy : h.Leads isSource x y) (hx : x.obj = true) :
    y.obj = true := by
  induction hxy with
  | refl => exact hx
  | inner _ _ _ hobj _ ih => exact ih hobj

theorem Resolved.inner {isSource : Bool} {x p : ObjPort} {l : List ObjFlow} {flow : ObjFlow}
    (hl : h.inside x.port.uid = some l) (hmem : flow ∈ l) (hfar : flow.far isSource = x.inner)
    (hobj : (flow.near isSource).obj = true) (hp : h.Resolved isSource (flow.near isSource) p) :
    h.Resolved isSource x p := by
  rcases hp with ⟨hleads, hblock⟩ | ⟨q, l', flow', hleads, hrest⟩
  · exact .inl ⟨.inner hl hmem hfar hobj hleads, hblock⟩
  · exact .inr ⟨q, l', flow', .inner hl hmem hfar hobj hleads, hrest⟩

/-- A resolved port of a topology comes from a flow in it. -/
theorem Resolved.cases {isSource : Bool} {x p : ObjPort} {l : List ObjFlow} (hl : h.inside x.port.uid = some l)
    (hp : h.Resolved isSource x p) :
    ∃ flow ∈ l, flow.far isSource = x.inner ∧
      if (flow.near isSource).obj = true then h.Resolved isSource (flow.near isSource) p
      else p = flow.near isSource := by
  rcases hp with ⟨hleads, hblock⟩ | ⟨q, l', flow', hleads, hl', hmem', hfar', hnear', hnull⟩
  · cases hleads with
    | refl => exact absurd hblock.2 (by simp [hl])
    | inner hl₁ hmem hfar hobj hrest =>
        obtain rfl := Option.some.inj (hl.symm.trans hl₁)
        exact ⟨_, hmem, hfar, by rw [if_pos hobj]; exact .inl ⟨hrest, hblock⟩⟩
  · cases hleads with
    | refl =>
        obtain rfl := Option.some.inj (hl.symm.trans hl')
        exact ⟨flow', hmem', hfar', by rw [hnear', hnull]; rfl⟩
    | inner hl₁ hmem hfar hobj hrest =>
        obtain rfl := Option.some.inj (hl.symm.trans hl₁)
        exact ⟨_, hmem, hfar, by rw [if_pos hobj]; exact .inr ⟨q, l', flow', hrest, hl', hmem', hfar', hnear', hnull⟩⟩

/-- **`resolvePorts`, with enough calls for the height.** -/
theorem mem_resolvePorts {isSource : Bool} {p : ObjPort} :
    ∀ {depth : ℕ} {x : ObjPort}, x.obj = true → h.height x.port.uid < depth →
      (p ∈ h.resolvePorts depth x isSource ↔ h.Resolved isSource x p) := by
  intro depth
  induction depth with
  | zero => exact fun _ hlt => absurd hlt (Nat.not_lt_zero _)
  | succ depth ih =>
      intro x hx hlt
      cases hl : h.inside x.port.uid with
      | none =>
          rw [resolvePorts, hl, List.mem_singleton]
          constructor
          · rintro rfl
            exact .inl ⟨.refl p, hx, hl⟩
          · rintro (⟨hleads, -⟩ | ⟨q, l', flow', hleads, hl', -⟩)
            · cases hleads with
              | refl => rfl
              | inner hl₁ => exact absurd (hl.symm.trans hl₁) (by simp)
            · cases hleads with
              | refl => exact absurd (hl.symm.trans hl') (by simp)
              | inner hl₁ => exact absurd (hl.symm.trans hl₁) (by simp)
      | some l =>
          rw [resolvePorts, hl]
          simp only [mem_resolvePortsFromTopology]
          constructor
          · rintro ⟨flow, hmem, hname, hnull, hp⟩
            have hfar := (far_eq_inner_iff hl hmem isSource).mp ⟨hname, hnull⟩
            cases hobj : (flow.near isSource).obj with
            | true =>
                rw [if_pos hobj, ih hobj (by have := height_lt hl hmem hobj; omega)] at hp
                exact hp.inner hl hmem hfar hobj
            | false =>
                rw [hobj] at hp
                obtain rfl : p = flow.near isSource := hp
                exact .inr ⟨x, l, flow, .refl x, hl, hmem, hfar, rfl, hobj⟩
          · intro hp
            obtain ⟨flow, hmem, hfar, hrest⟩ := hp.cases hl
            obtain ⟨hname, hnull⟩ := (far_eq_inner_iff hl hmem isSource).mpr hfar
            refine ⟨flow, hmem, hname, hnull, ?_⟩
            split at hrest
            · next hobj =>
              rw [if_pos hobj, ih hobj (by have := height_lt hl hmem hobj; omega)]
              exact hrest
            · next hobj =>
              rw [if_neg hobj]
              exact hrest

/-! ### What is squashed -/

theorem mem_uidToObj {flows : List ObjFlow} {uid : String} :
    uid ∈ uidToObj flows ↔
      ∃ flow ∈ flows, ∃ isSource, (flow.near isSource).obj = true ∧ (flow.near isSource).port.uid = uid := by
  unfold uidToObj
  rw [List.mem_insertionSort, List.mem_dedup, List.mem_flatMap]
  refine exists_congr fun flow => and_congr_right fun _ => ?_
  rw [Bool.exists_bool, List.mem_append]
  cases hsrc : flow.src.obj <;> cases hdst : flow.dst.obj <;>
    simp [ObjFlow.near, hsrc, hdst, eq_comm, or_comm]

theorem Within.trans {t u v : String} (htu : h.Within t u) (huv : h.Within u v) : h.Within t v := by
  induction huv with
  | top => exact htu
  | obj isSource _ hl hmem hobj ih => exact .obj isSource ih hl hmem hobj

/-- The objects within `t` lie within an object of its own. -/
theorem Within.cases_head {t u : String} {l : List ObjFlow} (hl : h.inside t = some l) (htu : h.Within t u) :
    u = t ∨ ∃ uid ∈ uidToObj l, h.Within uid u := by
  induction htu with
  | top => exact .inl rfl
  | @obj t' l' flow isSource _ hl' hmem hobj ih =>
      refine .inr ?_
      rcases ih with rfl | ⟨uid, huid, hwithin⟩
      · obtain rfl := Option.some.inj (hl.symm.trans hl')
        exact ⟨_, mem_uidToObj.mpr ⟨flow, hmem, isSource, hobj, rfl⟩, .top⟩
      · exact ⟨uid, huid, .obj isSource hwithin hl' hmem hobj⟩

/-- A block has nothing in it. -/
theorem Within.of_block {t u : String} (hblock : h.inside t = none) (htu : h.Within t u) : u = t := by
  induction htu with
  | top => rfl
  | obj _ _ hl _ _ ih => rw [ih, hblock] at hl; cases hl

theorem Within.of_mem {t uid : String} {l : List ObjFlow} (hl : h.inside t = some l) (huid : uid ∈ uidToObj l) :
    h.Within t uid := by
  obtain ⟨flow, hmem, isSource, hobj, rfl⟩ := mem_uidToObj.mp huid
  exact .obj isSource .top hl hmem hobj

variable (h) in
/-- What `squashFlows` makes of one topology, without those in it. -/
def SquashedHere (l : List ObjFlow) (flow : ObjFlow) : Prop :=
  (∃ f ∈ l, f.src.obj = true ∧ f.dst.obj = true ∧ h.Resolved true f.src flow.src ∧ h.Resolved false f.dst flow.dst) ∨
    flow ∈ l ∧ flow.src.obj = false ∧ flow.dst.obj = false

theorem mem_combinations {depth : ℕ} {t : String} {l : List ObjFlow} (hl : h.inside t = some l)
    (hdepth : h.height t ≤ depth) {f flow : ObjFlow} (hf : f ∈ l) (hsrc : f.src.obj = true) (hdst : f.dst.obj = true) :
    flow ∈ h.combinations depth f ↔ h.Resolved true f.src flow.src ∧ h.Resolved false f.dst flow.dst := by
  have hlow : ∀ isSource, (f.near isSource).obj = true → h.height (f.near isSource).port.uid < depth :=
    fun isSource hobj => lt_of_lt_of_le (height_lt hl hf hobj) hdepth
  unfold combinations
  simp only [List.mem_flatMap, List.mem_map, mem_resolvePorts hsrc (hlow true hsrc),
    mem_resolvePorts hdst (hlow false hdst)]
  constructor
  · rintro ⟨src, hs, dst, hd, rfl⟩
    exact ⟨hs, hd⟩
  · rintro ⟨hs, hd⟩
    exact ⟨flow.src, hs, flow.dst, hd, rfl⟩

/-- **`squashFlows`, with enough calls for the height.** -/
theorem mem_squashFlows {flow : ObjFlow} :
    ∀ {depth : ℕ} {t : String} {l : List ObjFlow}, h.inside t = some l → h.height t < depth →
      (flow ∈ h.squashFlows depth l ↔ ∃ u l', h.Within t u ∧ h.inside u = some l' ∧ h.SquashedHere l' flow) := by
  intro depth
  induction depth with
  | zero => exact fun _ hlt => absurd hlt (Nat.not_lt_zero _)
  | succ depth ih =>
      intro t l hl hlt
      have hhere : ((∃ f ∈ l.filter fun f => f.src.obj ∧ f.dst.obj, flow ∈ h.combinations depth f) ∨
          flow ∈ l.filter fun f => ¬ f.src.obj ∧ ¬ f.dst.obj) ↔ h.SquashedHere l flow := by
        unfold SquashedHere
        refine or_congr ?_ (by simp [List.mem_filter])
        simp only [List.mem_filter, decide_eq_true_eq]
        refine exists_congr fun f => ?_
        constructor
        · rintro ⟨⟨hf, hsrc, hdst⟩, hcomb⟩
          exact ⟨hf, hsrc, hdst, (mem_combinations hl (by omega) hf hsrc hdst).mp hcomb⟩
        · rintro ⟨hf, hsrc, hdst, hres⟩
          exact ⟨⟨hf, hsrc, hdst⟩, (mem_combinations hl (by omega) hf hsrc hdst).mpr hres⟩
      have hsub : (∃ uid ∈ uidToObj l, flow ∈ h.resolveFlows (fun subFlows => h.squashFlows depth subFlows) uid) ↔
          ∃ uid ∈ uidToObj l, ∃ u l', h.Within uid u ∧ h.inside u = some l' ∧ h.SquashedHere l' flow := by
        refine exists_congr fun uid => and_congr_right fun huid => ?_
        obtain ⟨f, hf, isSource, hobj, rfl⟩ := mem_uidToObj.mp huid
        have hlow := height_lt hl hf hobj
        unfold resolveFlows
        cases hl' : h.inside (f.near isSource).port.uid with
        | some l' => exact ih hl' (by omega)
        | none =>
            simp only [List.not_mem_nil, false_iff]
            rintro ⟨u, l', hwithin, hu, -⟩
            rw [hwithin.of_block hl', hl'] at hu
            cases hu
      rw [squashFlows, List.mem_append, List.mem_append, List.mem_flatMap, List.mem_flatMap, or_right_comm, hhere, hsub]
      constructor
      · rintro (hsq | ⟨uid, huid, u, l', hwithin, hu, hsq⟩)
        · exact ⟨t, l, .top, hl, hsq⟩
        · exact ⟨u, l', (Within.of_mem hl huid).trans hwithin, hu, hsq⟩
      · rintro ⟨u, l', hwithin, hu, hsq⟩
        rcases hwithin.cases_head hl with rfl | ⟨uid, huid, hrest⟩
        · obtain rfl := Option.some.inj (hl.symm.trans hu)
          exact .inl hsq
        · exact .inr ⟨uid, huid, u, l', hrest, hu, hsq⟩

/-! ### Unbroken paths -/

variable {top : String}

theorem eq_outside_of_linked {x y : ObjPort} (hlink : Linked x y) (hy : y.obj = true) : y = x.outside := by
  obtain ⟨hport, -⟩ := hlink
  obtain ⟨port, obj⟩ := y
  simp only at hport hy
  rw [ObjPort.outside, hport, hy]

theorem eq_inner_of_linked {x y : ObjPort} (hlink : Linked x y) (hy : y.obj = false) : y = x.inner := by
  obtain ⟨hport, -⟩ := hlink
  obtain ⟨port, obj⟩ := y
  simp only at hport hy
  rw [ObjPort.inner, hport, hy]

theorem obj_of_linked {x y : ObjPort} (hlink : Linked x y) : y.obj = !x.obj :=
  Bool.eq_not.mpr hlink.2.symm

theorem linked_to_inner {x : ObjPort} (hx : x.obj = true) : Linked x x.inner := ⟨rfl, by simp [hx, ObjPort.inner]⟩

theorem linked_from_inner {x : ObjPort} (hx : x.obj = true) : Linked x.inner x := ⟨rfl, by simp [hx, ObjPort.inner]⟩

theorem linked_to_outside {x : ObjPort} (hx : x.obj = false) : Linked x x.outside :=
  ⟨rfl, by simp [hx, ObjPort.outside]⟩

theorem linked_from_outside {x : ObjPort} (hx : x.obj = false) : Linked x.outside x :=
  ⟨rfl, by simp [hx, ObjPort.outside]⟩

theorem inner_of_null {x : ObjPort} (hx : x.obj = false) : x.inner = x := by
  obtain ⟨port, obj⟩ := x
  simp only at hx
  rw [ObjPort.inner, hx]

theorem outside_of_obj {x : ObjPort} (hx : x.obj = true) : x.outside = x := by
  obtain ⟨port, obj⟩ := x
  simp only at hx
  rw [ObjPort.outside, hx]

/-- From a port in, along the descent. -/
theorem Leads.descend {b y : ObjPort} (hleads : h.Leads false b y) (hb : b.obj = true)
    (hwithin : h.Within top b.port.uid) : b = y ∨ h.Unbroken top b.inner y := by
  induction hleads with
  | refl => exact .inl rfl
  | @inner b y l flow hl hmem hfar hobj _ ih =>
      refine .inr ?_
      have hcarried : h.Carried top b.inner (flow.near false) :=
        ⟨⟨_, l, hwithin, hl, hfar ▸ hmem⟩, .inr hobj⟩
      rcases ih hobj (.obj false hwithin hl hmem hobj) with rfl | hpath
      · exact .direct hcarried
      · exact .through hcarried (linked_to_inner hobj) hpath

/-- Along the climb, to a port from within. -/
theorem Leads.climb {a x : ObjPort} (hleads : h.Leads true a x) (ha : a.obj = true)
    (hwithin : h.Within top a.port.uid) : a = x ∨ h.Unbroken top x a.inner := by
  induction hleads with
  | refl => exact .inl rfl
  | @inner a x l flow hl hmem hfar hobj _ ih =>
      refine .inr ?_
      have hcarried : h.Carried top (flow.near true) a.inner :=
        ⟨⟨_, l, hwithin, hl, hfar ▸ hmem⟩, .inl hobj⟩
      rcases ih hobj (.obj true hwithin hl hmem hobj) with rfl | hpath
      · exact .direct hcarried
      · exact hpath.append (linked_from_inner hobj) (.direct hcarried)

/-- A path from within a topology only descends. -/
theorem Unbroken.descends {c y : ObjPort} (hpath : h.Unbroken top c y) (hc : c.obj = false) (hy : y.obj = true) :
    ∃ l flow, h.inside c.port.uid = some l ∧ flow ∈ l ∧ flow.src = c ∧ flow.dst.obj = true ∧
      h.Leads false flow.dst y := by
  induction hpath with
  | direct hcarried =>
      obtain ⟨⟨t, l, -, hl, hmem⟩, -⟩ := hcarried
      have huid := uid_of_null hl hmem true hc
      exact ⟨l, _, (congrArg h.inside huid).trans hl, hmem, rfl, hy, .refl _⟩
  | @through a b c' y hcarried hlink _ ih =>
      obtain ⟨⟨t, l, -, hl, hmem⟩, hobj⟩ := hcarried
      have hb : b.obj = true := hobj.resolve_left (by simp [hc])
      have hc' : c'.obj = false := by rw [obj_of_linked hlink, hb]; rfl
      obtain ⟨l', flow, hl', hmem', hsrc, hdst, hleads⟩ := ih hc' hy
      have huid := uid_of_null hl hmem true hc
      refine ⟨l, _, (congrArg h.inside huid).trans hl, hmem, rfl, hb, ?_⟩
      exact .inner (hlink.1 ▸ hl') hmem' (hsrc.trans (eq_inner_of_linked hlink hc')) hdst hleads

/-- **A path climbs, takes a flow between two objects, and descends.** -/
theorem unbroken_iff {x y : ObjPort} (hx : x.obj = true) (hy : y.obj = true) :
    h.Unbroken top x y ↔
      ∃ t l f, h.Within top t ∧ h.inside t = some l ∧ f ∈ l ∧ f.src.obj = true ∧ f.dst.obj = true ∧
        h.Leads true f.src x ∧ h.Leads false f.dst y := by
  constructor
  · intro hpath
    induction hpath with
    | direct hcarried =>
        obtain ⟨⟨t, l, hwithin, hl, hmem⟩, -⟩ := hcarried
        exact ⟨t, l, _, hwithin, hl, hmem, hx, hy, .refl _, .refl _⟩
    | @through a b c y hcarried hlink hrest ih =>
        obtain ⟨⟨t, l, hwithin, hl, hmem⟩, -⟩ := hcarried
        cases hb : b.obj with
        | true =>
            have hc : c.obj = false := by rw [obj_of_linked hlink, hb]; rfl
            obtain ⟨l', flow, hl', hmem', hsrc, hdst, hleads⟩ := Unbroken.descends hrest hc hy
            refine ⟨t, l, _, hwithin, hl, hmem, hx, hb, .refl _, ?_⟩
            exact .inner (hlink.1 ▸ hl') hmem' (hsrc.trans (eq_inner_of_linked hlink hc)) hdst hleads
        | false =>
            have hc : c.obj = true := by rw [obj_of_linked hlink, hb]; rfl
            obtain ⟨t', l', f, hwithin', hl', hf, hsrc, hdst, hclimb, hdescend⟩ := ih hc hy
            refine ⟨t', l', f, hwithin', hl', hf, hsrc, hdst, ?_, hdescend⟩
            have huid := uid_of_null hl hmem false hb
            have hl₁ : h.inside c.port.uid = some l := by rw [← hlink.1, ← hl]; exact congrArg h.inside huid
            have hfar : b = c.inner := by rw [ObjPort.inner, ← hlink.1]; exact (inner_of_null hb).symm
            exact hclimb.snoc hl₁ hmem hfar hx
  · rintro ⟨t, l, f, hwithin, hl, hmem, hsrc, hdst, hclimb, hdescend⟩
    have hcarried : h.Carried top f.src f.dst := ⟨⟨t, l, hwithin, hl, hmem⟩, .inl hsrc⟩
    have hdown : h.Unbroken top f.src y := by
      rcases hdescend.descend hdst (.obj false hwithin hl hmem hdst) with rfl | hpath
      · exact .direct hcarried
      · exact .through hcarried (linked_to_inner hdst) hpath
    rcases hclimb.climb hsrc (.obj true hwithin hl hmem hsrc) with rfl | hpath
    · exact hdown
    · exact hpath.append (linked_from_inner hsrc) hdown

end Hierarchy

end PothosCore.Framework
