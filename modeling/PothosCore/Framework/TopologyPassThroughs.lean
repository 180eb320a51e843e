import PothosCore.Framework.TopologyFlattening

/-!
# PothosCore.Framework.TopologyPassThroughs

What `completePassThroughFlows` makes of the flows with a null end.

A null end stands for a port of a topology, which a path comes to from one side and goes
on from at the other side of a pass-through. A flow with two null ends, a head and a tail
are put together where they agree in those ends. That is right for pass-throughs that are
plain; otherwise paths through two of them get lost, and others are invented.
-/

namespace PothosCore.Framework

open PothosCore.Lib

namespace Hierarchy

variable {h : Hierarchy} {top : String}

/-! ### The flows with a null end -/

variable (h) (top) in
/-- The port that a flow end of `squashFlows` stands for: a port of a block for itself, the
far end of a pass-through for the port of its near end. -/
def StandsFor (isSource : Bool) (p x : ObjPort) : Prop :=
  (x = p ∧ h.BlockPort p) ∨
    ∃ q, (if isSource then h.PassThrough top p q else h.PassThrough top q p) ∧ x = q.outside

theorem Leads.within {isSource : Bool} {x q : ObjPort} (hleads : h.Leads isSource x q)
    (hwithin : h.Within top x.port.uid) : h.Within top q.port.uid := by
  induction hleads with
  | refl => exact hwithin
  | inner hl hmem _ hobj _ ih => exact ih (.obj isSource hwithin hl hmem hobj)

/-- What `resolvePorts` finds stands for where the climb or the descent ends. -/
theorem resolved_iff {isSource : Bool} {x p : ObjPort} (hx : x.obj = true) (hwithin : h.Within top x.port.uid) :
    h.Resolved isSource x p ↔ ∃ q, h.Leads isSource x q ∧ h.StandsFor top isSource p q := by
  constructor
  · rintro (⟨hleads, hblock⟩ | ⟨q, l, flow, hleads, hl, hmem, hfar, rfl, hnull⟩)
    · exact ⟨p, hleads, .inl ⟨rfl, hblock⟩⟩
    · have hedge : ⟨flow.src, flow.dst⟩ ∈ l := hmem
      refine ⟨q, hleads, .inr ⟨q.inner, ?_, (outside_of_obj (hleads.obj hx)).symm⟩⟩
      rw [← hfar]
      cases isSource with
      | true => exact ⟨⟨_, l, hleads.within hwithin, hl, hedge⟩, hnull, congrArg ObjPort.obj hfar⟩
      | false => exact ⟨⟨_, l, hleads.within hwithin, hl, hedge⟩, congrArg ObjPort.obj hfar, hnull⟩
  · rintro ⟨q, hleads, (⟨rfl, hblock⟩ | ⟨r, hpass, rfl⟩)⟩
    · exact .inl ⟨hleads, hblock⟩
    · have hflow : ∃ l flow, h.inside r.port.uid = some l ∧ flow ∈ l ∧ flow.far isSource = r.outside.inner ∧
          flow.near isSource = p ∧ p.obj = false := by
        cases isSource with
        | true =>
            obtain ⟨⟨t, l, -, hl, hmem⟩, hp, hr⟩ := hpass
            have huid := uid_of_null hl hmem false hr
            exact ⟨l, _, (congrArg h.inside huid).trans hl, hmem, (inner_of_null hr).symm, rfl, hp⟩
        | false =>
            obtain ⟨⟨t, l, -, hl, hmem⟩, hr, hp⟩ := hpass
            have huid := uid_of_null hl hmem true hr
            exact ⟨l, _, (congrArg h.inside huid).trans hl, hmem, (inner_of_null hr).symm, rfl, hp⟩
      obtain ⟨l, flow, hl, hmem, hfar, hnear, hnull⟩ := hflow
      exact .inr ⟨r.outside, l, flow, hleads, hl, hmem, hfar, hnear, hnull⟩

theorem StandsFor.obj {isSource : Bool} {p x : ObjPort} (hstands : h.StandsFor top isSource p x) : x.obj = true := by
  rcases hstands with ⟨rfl, hblock⟩ | ⟨q, -, rfl⟩
  · exact hblock.1
  · rfl

variable (h) (top) in
/-- The flow is one of `squashFlows`. -/
def Squashed (flow : ObjFlow) : Prop :=
  ∃ u l, h.Within top u ∧ h.inside u = some l ∧ h.SquashedHere l flow

/-- **The flows of `squashFlows`**: unbroken paths between what their ends stand for, and
the pass-throughs. -/
theorem squashed_iff {flow : ObjFlow} :
    h.Squashed top flow ↔
      (∃ x y, h.Unbroken top x y ∧ h.StandsFor top true flow.src x ∧ h.StandsFor top false flow.dst y) ∨
        h.PassThrough top flow.src flow.dst := by
  constructor
  · rintro ⟨u, l, hwithin, hl, (⟨f, hf, hsrc, hdst, hressrc, hresdst⟩ | ⟨hmem, hsrc, hdst⟩)⟩
    · obtain ⟨x, hclimb, hx⟩ := (resolved_iff hsrc (.obj true hwithin hl hf hsrc)).mp hressrc
      obtain ⟨y, hdescend, hy⟩ := (resolved_iff hdst (.obj false hwithin hl hf hdst)).mp hresdst
      have hunbroken := (unbroken_iff hx.obj hy.obj).mpr ⟨u, l, f, hwithin, hl, hf, hsrc, hdst, hclimb, hdescend⟩
      exact .inl ⟨x, y, hunbroken, hx, hy⟩
    · exact .inr ⟨⟨u, l, hwithin, hl, hmem⟩, hsrc, hdst⟩
  · rintro (⟨x, y, hpath, hx, hy⟩ | ⟨⟨u, l, hwithin, hl, hmem⟩, hsrc, hdst⟩)
    · obtain ⟨t, l, f, hwithin, hl, hf, hsrc, hdst, hclimb, hdescend⟩ := (unbroken_iff hx.obj hy.obj).mp hpath
      refine ⟨t, l, hwithin, hl, .inl ⟨f, hf, hsrc, hdst, ?_, ?_⟩⟩
      · exact (resolved_iff hsrc (.obj true hwithin hl hf hsrc)).mpr ⟨x, hclimb, hx⟩
      · exact (resolved_iff hdst (.obj false hwithin hl hf hdst)).mpr ⟨y, hdescend, hy⟩
    · exact ⟨u, l, hwithin, hl, .inr ⟨hmem, hsrc, hdst⟩⟩

/-! ### Completing the pass-throughs -/

theorem mem_completePassThroughFlows {flows : List ObjFlow} {flow : ObjFlow} :
    flow ∈ completePassThroughFlows flows ↔
      (∃ pass ∈ flows, ∃ tail ∈ flows, ∃ head ∈ flows, (pass.src.obj = false ∧ pass.dst.obj = false) ∧
        tail.dst.obj = true ∧ head.src.obj = true ∧ pass.src.port = tail.src.port ∧
        pass.dst.port = head.dst.port ∧ flow = ⟨head.src, tail.dst⟩) ∨
      flow ∈ flows ∧ flow.src.obj = true ∧ flow.dst.obj = true := by
  unfold completePassThroughFlows
  simp only [List.mem_append, List.mem_flatMap, List.mem_filter, List.mem_map, decide_eq_true_eq,
    Bool.not_eq_true]
  refine or_congr ?_ Iff.rfl
  constructor
  · rintro ⟨pass, ⟨hpass, hnull⟩, tail, ⟨htail, hdst⟩, head, ⟨hhead, hsrc, hs, hd⟩, rfl⟩
    exact ⟨pass, hpass, tail, htail, head, hhead, hnull, hdst, hsrc, hs, hd, rfl⟩
  · rintro ⟨pass, hpass, tail, htail, head, hhead, hnull, hdst, hsrc, hs, hd, rfl⟩
    exact ⟨pass, ⟨hpass, hnull⟩, tail, ⟨htail, hdst⟩, head, ⟨hhead, hsrc, hs, hd⟩, rfl⟩

variable (h) (top) in
/-- The flows of `squashFlows` with two null ends: a pass-through, or an unbroken path from
the far side of one to another, which is known by its ends at both. -/
def Bridge (s d : ObjPort) : Prop :=
  h.PassThrough top s d ∨
    ∃ d' s', h.PassThrough top s d' ∧ h.Unbroken top d'.outside s'.outside ∧ h.PassThrough top s' d

theorem standsFor_block {isSource : Bool} {p x : ObjPort} (hp : p.obj = true) :
    h.StandsFor top isSource p x ↔ x = p ∧ h.BlockPort p := by
  refine or_iff_left ?_
  rintro ⟨q, hpass, -⟩
  cases isSource with
  | true => exact absurd hpass.2.1 (by simp [hp])
  | false => exact absurd hpass.2.2 (by simp [hp])

theorem standsFor_null {isSource : Bool} {p x : ObjPort} (hp : p.obj = false) :
    h.StandsFor top isSource p x ↔
      ∃ q, (if isSource then h.PassThrough top p q else h.PassThrough top q p) ∧ x = q.outside :=
  or_iff_right fun hblock => absurd hblock.2.1 (by simp [hp])

/-- Between ports of blocks. -/
theorem squashed_blocks {a b : ObjPort} (ha : a.obj = true) (hb : b.obj = true) :
    h.Squashed top ⟨a, b⟩ ↔ h.BlockPort a ∧ h.BlockPort b ∧ h.Unbroken top a b := by
  rw [squashed_iff, or_iff_left fun hpass => absurd hpass.2.1 (by simp [ha])]
  simp only [standsFor_block ha, standsFor_block hb]
  constructor
  · rintro ⟨x, y, hpath, ⟨rfl, hblock⟩, rfl, hblock'⟩
    exact ⟨hblock, hblock', hpath⟩
  · rintro ⟨hblock, hblock', hpath⟩
    exact ⟨a, b, hpath, ⟨rfl, hblock⟩, rfl, hblock'⟩

/-- From a port of a block to an output of a topology. -/
theorem squashed_head {a d : ObjPort} (ha : a.obj = true) (hd : d.obj = false) :
    h.Squashed top ⟨a, d⟩ ↔ h.BlockPort a ∧ ∃ s, h.PassThrough top s d ∧ h.Unbroken top a s.outside := by
  rw [squashed_iff, or_iff_left fun hpass => absurd hpass.2.1 (by simp [ha])]
  simp only [standsFor_block ha, standsFor_null hd]
  constructor
  · rintro ⟨x, y, hpath, ⟨rfl, hblock⟩, s, hpass, rfl⟩
    exact ⟨hblock, s, hpass, hpath⟩
  · rintro ⟨hblock, s, hpass, hpath⟩
    exact ⟨a, _, hpath, ⟨rfl, hblock⟩, s, hpass, rfl⟩

/-- From an input of a topology to a port of a block. -/
theorem squashed_tail {s b : ObjPort} (hs : s.obj = false) (hb : b.obj = true) :
    h.Squashed top ⟨s, b⟩ ↔ h.BlockPort b ∧ ∃ d, h.PassThrough top s d ∧ h.Unbroken top d.outside b := by
  rw [squashed_iff, or_iff_left fun hpass => absurd hpass.2.2 (by simp [hb])]
  simp only [standsFor_block hb, standsFor_null hs]
  constructor
  · rintro ⟨x, y, hpath, ⟨d, hpass, rfl⟩, rfl, hblock⟩
    exact ⟨hblock, d, hpass, hpath⟩
  · rintro ⟨hblock, d, hpass, hpath⟩
    exact ⟨_, b, hpath, ⟨d, hpass, rfl⟩, rfl, hblock⟩

theorem squashed_bridge {s d : ObjPort} (hs : s.obj = false) (hd : d.obj = false) :
    h.Squashed top ⟨s, d⟩ ↔ h.Bridge top s d := by
  rw [squashed_iff, or_comm]
  refine or_congr Iff.rfl ?_
  simp only [standsFor_null hs, standsFor_null hd]
  constructor
  · rintro ⟨x, y, hpath, ⟨d', hpass, rfl⟩, s', hpass', rfl⟩
    exact ⟨d', s', hpass, hpath, hpass'⟩
  · rintro ⟨d', s', hpass, hpath, hpass'⟩
    exact ⟨_, _, hpath, ⟨d', hpass, rfl⟩, s', hpass', rfl⟩

theorem PassThrough.isSome {s d : ObjPort} (hpass : h.PassThrough top s d) :
    (h.inside s.port.uid).isSome = true ∧ (h.inside d.port.uid).isSome = true := by
  obtain ⟨⟨t, l, -, hl, hmem⟩, hs, hd⟩ := hpass
  have hsuid := uid_of_null hl hmem true hs
  have hduid := uid_of_null hl hmem false hd
  have hsome : (h.inside t).isSome = true := by rw [hl]; rfl
  exact ⟨(congrArg (fun uid => (h.inside uid).isSome) hsuid).trans hsome,
    (congrArg (fun uid => (h.inside uid).isSome) hduid).trans hsome⟩

theorem Bridge.isSome {s d : ObjPort} (hbridge : h.Bridge top s d) :
    (h.inside s.port.uid).isSome = true ∧ (h.inside d.port.uid).isSome = true := by
  rcases hbridge with hpass | ⟨d', s', hpass, -, hpass'⟩
  · exact hpass.isSome
  · exact ⟨hpass.isSome.1, hpass'.isSome.2⟩

/-- Ports are compared without their `obj`, but the port of a block is none of a topology. -/
theorem eq_of_port_eq {x y : ObjPort} (hx : x.obj = false) (hsome : (h.inside x.port.uid).isSome = true)
    (hy : y.obj = true → h.BlockPort y) (hport : x.port = y.port) : x = y := by
  cases hobj : y.obj with
  | true => rw [hport, (hy hobj).2] at hsome; cases hsome
  | false =>
      obtain ⟨port, obj⟩ := x
      obtain ⟨port', obj'⟩ := y
      simp only at hx hobj hport
      rw [hx, hobj, hport]

theorem Squashed.blockPort {flow : ObjFlow} (hsq : h.Squashed top flow) :
    (flow.src.obj = true → h.BlockPort flow.src) ∧ (flow.dst.obj = true → h.BlockPort flow.dst) := by
  rcases squashed_iff.mp hsq with ⟨x, y, -, hx, hy⟩ | ⟨-, hs, hd⟩
  · exact ⟨fun hobj => ((standsFor_block hobj).mp hx).2, fun hobj => ((standsFor_block hobj).mp hy).2⟩
  · exact ⟨fun hobj => absurd hobj (by simp [hs]), fun hobj => absurd hobj (by simp [hd])⟩

variable (h) (top) in
/-- Joined across pass-throughs, as `completePassThroughFlows` sees it: the bridge, the
head and the tail agree in the ends of pass-throughs only. -/
def Bridged (a b : ObjPort) : Prop :=
  ∃ s d, h.Bridge top s d ∧ (∃ s', h.PassThrough top s' d ∧ h.Unbroken top a s'.outside) ∧
    ∃ d', h.PassThrough top s d' ∧ h.Unbroken top d'.outside b

theorem mem_completePassThroughFlows_squashed {flows : List ObjFlow} (hflows : ∀ f, f ∈ flows ↔ h.Squashed top f)
    {flow : ObjFlow} :
    flow ∈ completePassThroughFlows flows ↔
      h.BlockPort flow.src ∧ h.BlockPort flow.dst ∧
        (h.Unbroken top flow.src flow.dst ∨ h.Bridged top flow.src flow.dst) := by
  rw [mem_completePassThroughFlows]
  simp only [hflows]
  constructor
  · rintro (⟨pass, hpass, tail, htail, head, hhead, ⟨hs, hd⟩, hdst, hsrc, htailsrc, hheaddst, rfl⟩ | ⟨hsq, hsrc, hdst⟩)
    · have hbridge := (squashed_bridge hs hd).mp hpass
      have hts := eq_of_port_eq hs hbridge.isSome.1 htail.blockPort.1 htailsrc
      have hhd := eq_of_port_eq hd hbridge.isSome.2 hhead.blockPort.2 hheaddst
      obtain ⟨hblock, s', hpass', hpath⟩ := (squashed_head hsrc (hhd ▸ hd)).mp hhead
      obtain ⟨hblock', d', hpass'', hpath'⟩ := (squashed_tail (hts ▸ hs) hdst).mp htail
      exact ⟨hblock, hblock', .inr ⟨pass.src, pass.dst, hbridge, ⟨s', hhd ▸ hpass', hpath⟩, d', hts ▸ hpass'', hpath'⟩⟩
    · obtain ⟨hblock, hblock', hpath⟩ := (squashed_blocks hsrc hdst).mp hsq
      exact ⟨hblock, hblock', .inl hpath⟩
  · rintro ⟨hblock, hblock', (hpath | ⟨s, d, hbridge, ⟨s', hpass', hpath⟩, d', hpass'', hpath'⟩)⟩
    · exact .inr ⟨(squashed_blocks hblock.1 hblock'.1).mpr ⟨hblock, hblock', hpath⟩, hblock.1, hblock'.1⟩
    · have hs := hpass''.2.1
      have hd := hpass'.2.2
      refine .inl ⟨⟨s, d⟩, (squashed_bridge hs hd).mpr hbridge, ⟨s, flow.dst⟩, ?_, ⟨flow.src, d⟩, ?_, ⟨hs, hd⟩,
        hblock'.1, hblock.1, rfl, rfl, rfl⟩
      · exact (squashed_tail hs hblock'.1).mpr ⟨hblock', d', hpass'', hpath'⟩
      · exact (squashed_head hblock.1 hd).mpr ⟨hblock, s', hpass', hpath⟩

/-- The list that a commit completes. -/
theorem completeFlows_squashed (h : Hierarchy) {depth : ℕ} {top : String} (hdepth : h.height top < depth) :
    ∃ flows, h.completeFlows depth top = completePassThroughFlows flows ∧ ∀ f, f ∈ flows ↔ h.Squashed top f := by
  unfold completeFlows
  cases hl : h.inside top with
  | some l => exact ⟨_, rfl, fun f => mem_squashFlows hl hdepth⟩
  | none =>
      refine ⟨[], rfl, fun f => ⟨fun hmem => absurd hmem List.not_mem_nil, ?_⟩⟩
      rintro ⟨u, l, hwithin, hu, -⟩
      rw [hwithin.of_block hl, hl] at hu
      cases hu

/-- **What a commit connects.** -/
theorem mem_completeFlows_iff (h : Hierarchy) (depth : ℕ) (top : String) (hdepth : h.height top < depth)
    (flow : ObjFlow) :
    flow ∈ h.completeFlows depth top ↔
      h.BlockPort flow.src ∧ h.BlockPort flow.dst ∧
        (h.Unbroken top flow.src flow.dst ∨ h.Bridged top flow.src flow.dst) := by
  obtain ⟨flows, heq, hflows⟩ := completeFlows_squashed h hdepth
  rw [heq]
  exact mem_completePassThroughFlows_squashed hflows

/-- Two blocks with a pass-through between them. -/
def passerFlows (uid : String) : Option (List Flow) :=
  if uid = "topology" then
    some [⟨⟨"ping", "out0"⟩, ⟨"passer", "passIn"⟩⟩, ⟨⟨"passer", "passOut"⟩, ⟨"pong", "in0"⟩⟩]
  else if uid = "passer" then some [⟨⟨"passer", "passIn"⟩, ⟨"passer", "passOut"⟩⟩]
  else none

def passerHeight (uid : String) : ℕ := if uid = "topology" then 2 else if uid = "passer" then 1 else 0

theorem passer_below : ∀ t l, passerFlows t = some l → ∀ flow ∈ l,
    (flow.src.uid ≠ t → passerHeight flow.src.uid < passerHeight t) ∧
      (flow.dst.uid ≠ t → passerHeight flow.dst.uid < passerHeight t) := by
  intro t l hl flow hflow
  unfold passerFlows at hl
  split_ifs at hl with htop hpasser
  · subst htop
    obtain rfl := (Option.some.inj hl).symm
    simp only [List.mem_cons, List.not_mem_nil, or_false] at hflow
    rcases hflow with rfl | rfl <;> decide
  · subst hpasser
    obtain rfl := (Option.some.inj hl).symm
    simp only [List.mem_cons, List.not_mem_nil, or_false] at hflow
    subst hflow
    decide

def passerHierarchy : Hierarchy := ⟨passerFlows, passerHeight, passer_below⟩

/-- The pass-through is completed. -/
theorem passer_completes : passerHierarchy.Unbroken "topology" ⟨⟨"ping", "out0"⟩, true⟩ ⟨⟨"pong", "in0"⟩, true⟩ ∨
    passerHierarchy.Bridged "topology" ⟨⟨"ping", "out0"⟩, true⟩ ⟨⟨"pong", "in0"⟩, true⟩ :=
  ((mem_completeFlows_iff passerHierarchy 3 "topology" (by decide)
    ⟨⟨⟨"ping", "out0"⟩, true⟩, ⟨⟨"pong", "in0"⟩, true⟩⟩).mp (by decide)).2.2

/-! ### Where the flattening keeps the paths -/

variable (h) (top) in
/-- From the outside of the input of a pass-through to the outside of its output. -/
def Across (x y : ObjPort) : Prop := ∃ s d, h.PassThrough top s d ∧ x = s.outside ∧ y = d.outside

/-- A path, with the ports of a topology and the pass-throughs as what joins its flows. From
within a topology it may begin with a pass-through. -/
theorem Path.joined {x y : ObjPort} (hpath : h.Path top x y) (hy : y.obj = true) :
    Joined (fun a b => Linked a b ∨ h.Across top a b) (h.Carried top) x y ∨
      ∃ d, h.PassThrough top x d ∧
        Joined (fun a b => Linked a b ∨ h.Across top a b) (h.Carried top) d.outside y := by
  induction hpath with
  | direct hedge => exact .inl (.direct ⟨hedge, .inr hy⟩)
  | @through a b c y hedge hlink _ ih =>
      cases hb : b.obj with
      | true =>
          have hcarried : h.Carried top a b := ⟨hedge, .inr hb⟩
          rcases ih hy with hrest | ⟨d, hpass, hrest⟩
          · exact .inl (.through hcarried (.inl hlink) hrest)
          · have hb' : b = c.outside := by
              rw [eq_inner_of_linked hlink hpass.2.1]
              exact (outside_of_obj hb).symm
            exact .inl (.through hcarried (.inr ⟨c, d, hpass, hb', rfl⟩) hrest)
      | false =>
          have hc : c.obj = true := by rw [obj_of_linked hlink, hb]; rfl
          have hrest := (ih hy).resolve_right fun ⟨d, hpass, _⟩ => absurd hpass.2.1 (by simp [hc])
          cases ha : a.obj with
          | true => exact .inl (.through ⟨hedge, .inl ha⟩ (.inl hlink) hrest)
          | false => exact .inr ⟨b, ⟨hedge, ha, hb⟩, eq_outside_of_linked hlink hc ▸ hrest⟩

/-- Through a pass-through. -/
theorem Path.across {x s d y : ObjPort} (hpath : h.Path top x s.outside) (hpass : h.PassThrough top s d)
    (hrest : h.Path top d.outside y) : h.Path top x y := by
  have hfrom : h.Path top s y := .through hpass.1 (linked_to_outside hpass.2.2) hrest
  exact hpath.append (linked_from_outside hpass.2.1) hfrom

theorem Unbroken.path {x y : ObjPort} (hpath : h.Unbroken top x y) : h.Path top x y := by
  induction hpath with
  | direct hcarried => exact .direct hcarried.1
  | through hcarried hlink _ ih => exact .through hcarried.1 hlink ih

/-- **The paths are the unbroken ones, with pass-throughs between.** -/
theorem path_iff {x y : ObjPort} (hx : x.obj = true) (hy : y.obj = true) :
    h.Path top x y ↔ Joined (h.Across top) (h.Unbroken top) x y := by
  constructor
  · intro hpath
    have hjoined := (hpath.joined hy).resolve_right fun ⟨d, hpass, _⟩ => absurd hpass.2.1 (by simp [hx])
    exact Joined.or_iff.mp hjoined
  · intro hjoined
    clear hx
    induction hjoined with
    | direct hpath => exact hpath.path
    | through hpath hacross _ ih =>
        obtain ⟨s, d, hpass, rfl, rfl⟩ := hacross
        exact hpath.path.across hpass (ih hy)

variable (h) (top) in
/-- No pass-through leads to another, and the outputs that the inputs of a topology are
passed to are the same or apart. -/
structure PlainPassThroughs : Prop where
  apart : ∀ s d s' d', h.PassThrough top s d → h.PassThrough top s' d' → ¬ h.Unbroken top d.outside s'.outside
  same : ∀ s d s' d', h.PassThrough top s' d → h.PassThrough top s d → h.PassThrough top s d' →
    h.PassThrough top s' d'

theorem PlainPassThroughs.unbroken_or_bridged_iff (hplain : h.PlainPassThroughs top) {x y : ObjPort}
    (hx : x.obj = true) (hy : y.obj = true) :
    h.Unbroken top x y ∨ h.Bridged top x y ↔ h.Path top x y := by
  constructor
  · rintro (hpath | ⟨s, d, (hpass | ⟨d₁, s₂, hpass₁, hpath, hpass₂⟩), ⟨s', hpass', hhead⟩, d', hpass'', htail⟩)
    · exact hpath.path
    · exact hhead.path.across (hplain.same s d s' d' hpass' hpass hpass'') htail.path
    · exact absurd hpath (hplain.apart _ _ _ _ hpass₁ hpass₂)
  · intro hpath
    cases (path_iff hx hy).mp hpath with
    | direct hpath => exact .inl hpath
    | through hhead hacross hrest =>
        obtain ⟨s, d, hpass, hs, rfl⟩ := hacross
        cases hrest with
        | direct htail => exact .inr ⟨s, d, .inl hpass, ⟨s, hpass, hs ▸ hhead⟩, d, hpass, htail⟩
        | through hmid hacross' _ =>
            obtain ⟨s', d', hpass', hs', -⟩ := hacross'
            exact absurd (hs' ▸ hmid) (hplain.apart _ _ _ _ hpass hpass')

/-- **With plain pass-throughs a commit connects the paths, and nothing else.** -/
theorem mem_completeFlows_iff_path (h : Hierarchy) (depth : ℕ) (top : String) (hdepth : h.height top < depth)
    (hplain : h.PlainPassThroughs top) (flow : ObjFlow) :
    flow ∈ h.completeFlows depth top ↔
      h.BlockPort flow.src ∧ h.BlockPort flow.dst ∧ h.Path top flow.src flow.dst := by
  obtain ⟨flows, heq, hflows⟩ := completeFlows_squashed h hdepth
  rw [heq, mem_completePassThroughFlows_squashed hflows]
  exact and_congr_right fun hsrc => and_congr_right fun hdst => hplain.unbroken_or_bridged_iff hsrc.1 hdst.1

theorem passer_edge {x y : ObjPort} (hedge : passerHierarchy.Edge "topology" x y) :
    (x = ⟨⟨"ping", "out0"⟩, true⟩ ∧ y = ⟨⟨"passer", "passIn"⟩, true⟩) ∨
      (x = ⟨⟨"passer", "passOut"⟩, true⟩ ∧ y = ⟨⟨"pong", "in0"⟩, true⟩) ∨
      (x = ⟨⟨"passer", "passIn"⟩, false⟩ ∧ y = ⟨⟨"passer", "passOut"⟩, false⟩) := by
  obtain ⟨t, l, -, hl, hmem⟩ := hedge
  obtain ⟨fs, f, hfs, hf, heq⟩ := mem_inside hl hmem
  unfold passerHierarchy passerFlows at hfs
  simp only at hfs
  split_ifs at hfs with htop hpasser
  · subst htop
    obtain rfl := (Option.some.inj hfs).symm
    simp only [List.mem_cons, List.not_mem_nil, or_false] at hf
    rcases hf with rfl | rfl <;> cases heq <;> decide
  · subst hpasser
    obtain rfl := (Option.some.inj hfs).symm
    simp only [List.mem_cons, List.not_mem_nil, or_false] at hf
    subst hf
    cases heq
    decide

theorem passer_pass {s d : ObjPort} (hpass : passerHierarchy.PassThrough "topology" s d) :
    s = ⟨⟨"passer", "passIn"⟩, false⟩ ∧ d = ⟨⟨"passer", "passOut"⟩, false⟩ := by
  obtain ⟨hedge, hs, -⟩ := hpass
  rcases passer_edge hedge with ⟨rfl, -⟩ | ⟨rfl, -⟩ | hends
  · cases hs
  · cases hs
  · exact hends

/-- From the output of the pass-through there is no way back to its input. -/
theorem passer_no_return {y : ObjPort}
    (hpath : passerHierarchy.Unbroken "topology" ⟨⟨"passer", "passOut"⟩, true⟩ y) : y = ⟨⟨"pong", "in0"⟩, true⟩ := by
  cases hpath with
  | direct hcarried =>
      rcases passer_edge hcarried.1 with ⟨hping, -⟩ | ⟨-, hpong⟩ | ⟨hin, -⟩
      · exact absurd hping (by decide)
      · exact hpong
      · exact absurd hin (by decide)
  | through hcarried hlink hrest =>
      have hfirst : ∀ {c e : ObjPort}, passerHierarchy.Unbroken "topology" c e →
          ∃ e', passerHierarchy.Edge "topology" c e' := by
        intro c e hpath
        cases hpath with
        | direct hcarried => exact ⟨_, hcarried.1⟩
        | through hcarried => exact ⟨_, hcarried.1⟩
      obtain ⟨e, hedge⟩ := hfirst hrest
      rcases passer_edge hcarried.1 with ⟨hping, -⟩ | ⟨-, rfl⟩ | ⟨hin, -⟩
      · exact absurd hping (by decide)
      · -- no flow starts at the other side of a port of a block
        rcases passer_edge hedge with ⟨rfl, -⟩ | ⟨rfl, -⟩ | ⟨rfl, -⟩ <;> exact absurd hlink.1 (by decide)
      · exact absurd hin (by decide)

theorem passer_plain : passerHierarchy.PlainPassThroughs "topology" := by
  constructor
  · intro s d s' d' hpass hpass' hpath
    obtain ⟨-, rfl⟩ := passer_pass hpass
    obtain ⟨rfl, -⟩ := passer_pass hpass'
    exact absurd (passer_no_return hpath) (by decide)
  · intro s d s' d' hpass' _ hpass''
    obtain ⟨rfl, rfl⟩ := passer_pass hpass'
    obtain ⟨-, rfl⟩ := passer_pass hpass''
    exact hpass'

theorem passer_path : passerHierarchy.Path "topology" ⟨⟨"ping", "out0"⟩, true⟩ ⟨⟨"pong", "in0"⟩, true⟩ :=
  ((mem_completeFlows_iff_path passerHierarchy 3 "topology" (by decide) passer_plain
    ⟨⟨⟨"ping", "out0"⟩, true⟩, ⟨⟨"pong", "in0"⟩, true⟩⟩).mp (by decide)).2.2

end Hierarchy

end PothosCore.Framework
