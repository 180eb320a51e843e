import PothosCore.Framework.TopologyDumpJSON
import PothosCore.Framework.TopologyPassThroughs

/-!
# PothosCore.Framework.TopologyFlatDump

What the flat dump shows, against what a commit connects.

The rounds of `flattenDump` go through the levels of the hierarchy. After each one the dump
has the blocks down to a level and the topologies on it, and between the ports of these it
has the unbroken paths. A pass-through is joined in the round of its level, with what is
there then: blocks that are no deeper. What it joins to a topology is dropped.
-/

namespace PothosCore.Framework

open PothosCore.Lib

/-! ### Members of a dump -/

namespace Dump

theorem mem_setBlock {key : String} {b : DumpBlock} {m : String × DumpBlock} :
    ∀ {blocks : List (String × DumpBlock)}, m ∈ setBlock key b blocks → m = (key, b) ∨ m ∈ blocks
  | [], hm => .inl (List.mem_singleton.mp hm)
  | (key', b') :: rest, hm => by
      unfold setBlock at hm
      split_ifs at hm with hsame hless
      · rcases List.mem_cons.mp hm with rfl | hm
        · exact .inl rfl
        · exact .inr (List.mem_cons_of_mem _ hm)
      · exact List.mem_cons.mp hm
      · rcases List.mem_cons.mp hm with rfl | hm
        · exact .inr List.mem_cons_self
        · exact (mem_setBlock hm).imp_right (List.mem_cons_of_mem _)

/-- There is a member with this key. -/
def HasKey (key : String) (blocks : List (String × DumpBlock)) : Prop := ∃ b, (key, b) ∈ blocks

theorem HasKey.cons {key : String} {m : String × DumpBlock} {blocks : List (String × DumpBlock)} :
    HasKey key (m :: blocks) ↔ key = m.1 ∨ HasKey key blocks := by
  constructor
  · rintro ⟨b, hb⟩
    rcases List.mem_cons.mp hb with rfl | hb
    · exact .inl rfl
    · exact .inr ⟨b, hb⟩
  · rintro (rfl | ⟨b, hb⟩)
    · exact ⟨m.2, List.mem_cons_self⟩
    · exact ⟨b, List.mem_cons_of_mem _ hb⟩

theorem hasKey_setBlock {key key' : String} {b : DumpBlock} {blocks : List (String × DumpBlock)} :
    HasKey key (setBlock key' b blocks) ↔ key = key' ∨ HasKey key blocks := by
  induction blocks with
  | nil => rw [setBlock, HasKey.cons]
  | cons m rest ih =>
      obtain ⟨key₁, b₁⟩ := m
      unfold setBlock
      split_ifs with hsame hless
      · rw [HasKey.cons, HasKey.cons, hsame]
        tauto
      · rw [HasKey.cons]
      · rw [HasKey.cons, ih, HasKey.cons]
        tauto

theorem mem_foldl_setBlock {m : String × DumpBlock} {members blocks : List (String × DumpBlock)}
    (hm : m ∈ members.foldl (fun flat member => setBlock member.1 member.2 flat) blocks) :
    m ∈ members ∨ m ∈ blocks := by
  induction members generalizing blocks with
  | nil => exact .inr hm
  | cons m' members ih =>
      rcases ih hm with hm | hm
      · exact .inl (List.mem_cons_of_mem _ hm)
      · rcases mem_setBlock hm with rfl | hm
        · exact .inl List.mem_cons_self
        · exact .inr hm

theorem hasKey_foldl_setBlock {key : String} :
    ∀ {members blocks : List (String × DumpBlock)},
      HasKey key (members.foldl (fun flat member => setBlock member.1 member.2 flat) blocks) ↔
        HasKey key members ∨ HasKey key blocks
  | [], _ => by simp [HasKey]
  | m :: members, blocks => by
      rw [List.foldl_cons, hasKey_foldl_setBlock, hasKey_setBlock, HasKey.cons]
      tauto

theorem mem_flatBlocks {top : Dump} {m : String × DumpBlock} (hm : m ∈ top.flatBlocks) :
    ∃ member ∈ top.blocks, m ∈ flatMembers member := by
  rcases mem_foldl_setBlock hm with hm | hm
  · exact List.mem_flatMap.mp hm
  · cases hm

theorem hasKey_flatBlocks {top : Dump} {key : String} :
    HasKey key top.flatBlocks ↔ ∃ member ∈ top.blocks, HasKey key (flatMembers member) := by
  unfold flatBlocks
  rw [hasKey_foldl_setBlock]
  constructor
  · rintro (⟨b, hb⟩ | ⟨b, hb⟩)
    · obtain ⟨member, hmember, hb⟩ := List.mem_flatMap.mp hb
      exact ⟨member, hmember, b, hb⟩
    · cases hb
  · rintro ⟨member, hmember, b, hb⟩
    exact .inl ⟨b, List.mem_flatMap.mpr ⟨member, hmember, hb⟩⟩

theorem mem_flatMembers {member m : String × DumpBlock} :
    m ∈ flatMembers member ↔
      (member.2.sub = none ∧ m = member) ∨
        ∃ sub, member.2.sub = some sub ∧ ∃ subMember ∈ sub.blocks,
          m = (subMember.1, subMember.2.setName (member.2.info.name ++ "/" ++ subMember.2.info.name)) := by
  unfold flatMembers
  cases member.2.sub with
  | none => simp
  | some sub => simp [eq_comm]

theorem block?_eq_none {top : Dump} {uid : String} : top.block? uid = none ↔ ¬ HasKey uid top.blocks := by
  unfold block?
  rw [Option.map_eq_none_iff, List.find?_eq_none]
  simp only [decide_eq_true_eq, HasKey, not_exists]
  constructor
  · exact fun hall b hb => hall (uid, b) hb rfl
  · rintro hall ⟨uid', b⟩ hb rfl
    exact hall b hb

theorem mem_of_block? {top : Dump} {uid : String} {b : DumpBlock} (hb : top.block? uid = some b) :
    (uid, b) ∈ top.blocks := by
  obtain ⟨m, hm, rfl⟩ := Option.map_eq_some_iff.mp hb
  have huid : m.1 = uid := by simpa using List.find?_some hm
  exact huid ▸ List.mem_of_find?_eq_some hm

theorem flattenLoop_succ (rounds : ℕ) (top : Dump) :
    flattenLoop (rounds + 1) top =
      if top.flattenDump.1 then flattenLoop rounds top.flattenDump.2 else some top.flattenDump.2 := by
  rw [flattenLoop]
  obtain ⟨found, top'⟩ := top.flattenDump
  cases found <;> rfl

theorem mem_subConns {top : Dump} {key : String} {f : Flow} {x y : Port} :
    ⟨x, y⟩ ∈ top.subConns key f ↔
      (f = ⟨x, y⟩ ∧ f.src.uid ≠ key ∧ f.dst.uid ≠ key) ∨
        f.src.uid = key ∧ f.dst.uid = key ∧ ⟨x, f.src⟩ ∈ top.connections ∧ ⟨f.dst, y⟩ ∈ top.connections := by
  unfold subConns
  rw [List.mem_append]
  refine or_congr ?_ ?_
  · split_ifs with hinner
    · rw [List.mem_singleton, and_iff_left hinner, eq_comm]
    · simp only [List.not_mem_nil, false_iff]
      exact fun hf => hinner hf.2
  · split_ifs with hpass
    · obtain ⟨⟨uid, name⟩, ⟨uid', name'⟩⟩ := f
      obtain ⟨hsame, hsame'⟩ : uid = key ∧ uid' = key := hpass
      subst hsame hsame'
      simp only [List.mem_flatMap, List.mem_filter, List.mem_map, decide_eq_true_eq, true_and]
      constructor
      · rintro ⟨⟨src, dst⟩, ⟨hsrc, rfl⟩, ⟨src', dst'⟩, ⟨hdst, rfl⟩, heq⟩
        cases heq
        exact ⟨hsrc, hdst⟩
      · rintro ⟨hsrc, hdst⟩
        exact ⟨_, ⟨hsrc, rfl⟩, _, ⟨hdst, rfl⟩, rfl⟩
    · simp only [List.not_mem_nil, false_iff]
      exact fun hf => hpass ⟨hf.1, hf.2.1⟩

theorem mem_hierConns {top : Dump} {x y : Port} :
    ⟨x, y⟩ ∈ top.hierConns ↔ ∃ m ∈ top.blocks, ∃ sub, m.2.sub = some sub ∧ ∃ f ∈ sub.connections,
      ((f = ⟨x, y⟩ ∧ f.src.uid ≠ m.1 ∧ f.dst.uid ≠ m.1) ∨
        f.src.uid = m.1 ∧ f.dst.uid = m.1 ∧ ⟨x, f.src⟩ ∈ top.connections ∧ ⟨f.dst, y⟩ ∈ top.connections) := by
  unfold hierConns
  rw [List.mem_flatMap]
  refine exists_congr fun m => and_congr_right fun _ => ?_
  cases m.2.sub with
  | none => simp
  | some sub => simp only [List.mem_flatMap, mem_subConns, Option.some.injEq, exists_eq_left']

end Dump

namespace Hierarchy

/-! ### Levels -/

variable (h : Hierarchy) (top : String) (level : String → ℕ)

/-- The objects of a topology are one level below it. -/
structure Layered : Prop where
  zero : level top = 0
  obj : ∀ t l flow isSource, h.Within top t → h.inside t = some l → flow ∈ l →
    (flow.near isSource).obj = true → level (flow.near isSource).port.uid = level t + 1

/-- There in the dump when the levels above `ℓ` are taken down: the objects on the level,
and the blocks above it. -/
def OnStage (ℓ : ℕ) (uid : String) : Prop :=
  h.Within top uid ∧ 0 < level uid ∧ (level uid = ℓ ∨ h.inside uid = none ∧ level uid < ℓ)

/-- `x` is joined to `y` through one pass-through that is no higher than the two blocks. -/
def PassedOnce (x y : Port) : Prop :=
  ∃ s d, h.PassThrough top s d ∧ level x.uid ≤ level s.port.uid ∧ level y.uid ≤ level s.port.uid ∧
    h.Unbroken top ⟨x, true⟩ s.outside ∧ h.Unbroken top d.outside ⟨y, true⟩

/-- The same, through one above the level `ℓ`. -/
def PassedAbove (ℓ : ℕ) (x y : Port) : Prop :=
  h.BlockPort ⟨x, true⟩ ∧ h.BlockPort ⟨y, true⟩ ∧
    ∃ s d, h.PassThrough top s d ∧ level s.port.uid < ℓ ∧
      level x.uid ≤ level s.port.uid ∧ level y.uid ≤ level s.port.uid ∧
      h.Unbroken top ⟨x, true⟩ s.outside ∧ h.Unbroken top d.outside ⟨y, true⟩

/-- **The dump when the levels above `ℓ` are taken down.** -/
structure Stage (info : String → DumpInfo) (ℓ : ℕ) (dump : Dump) : Prop where
  members : ∀ m ∈ dump.blocks, h.OnStage top level ℓ m.1 ∧
    ∃ depth, h.height m.1 < depth ∧ m.2.sub = h.dumpTop info depth m.1
  complete : ∀ uid, h.OnStage top level ℓ uid → Dump.HasKey uid dump.blocks
  low : ∀ conn ∈ dump.connections, level conn.src.uid ≤ ℓ ∧ level conn.dst.uid ≤ ℓ
  conns : ∀ x y : Port, h.OnStage top level ℓ x.uid → h.OnStage top level ℓ y.uid →
    (⟨x, y⟩ ∈ dump.connections ↔
      h.Unbroken top ⟨x, true⟩ ⟨y, true⟩ ∨ h.PassedAbove top level ℓ x y)

variable {h} {top} {level} {info : String → DumpInfo} {ℓ : ℕ}

theorem inside_eq_none {uid : String} : h.inside uid = none ↔ h.flows uid = none := by
  unfold inside
  rw [Option.map_eq_none_iff]

variable (info) in
/-- The dump of a topology has its objects and its flows. -/
theorem dumpTop_some {depth : ℕ} {uid : String} (hdepth : h.height uid < depth) {fs : List Flow}
    (hfs : h.flows uid = some fs) :
    ∃ sub, h.dumpTop info depth uid = some sub ∧ sub.connections = fs ∧
      ∀ m, m ∈ sub.blocks ↔ ∃ blockId ∈ uidToObj (fs.map (Flow.within uid)),
        m = (blockId, .ofSub (info blockId) (if uid ≠ blockId then h.dumpTop info (depth - 1) blockId else none)) := by
  obtain ⟨depth, rfl⟩ : ∃ n, depth = n + 1 := ⟨depth - 1, by omega⟩
  rw [dumpTop, hfs]
  refine ⟨_, rfl, rfl, fun m => ?_⟩
  simp only [dumpBlocks, List.mem_map, Nat.add_sub_cancel]
  exact exists_congr fun blockId => and_congr_right fun _ => eq_comm

theorem dumpTop_none {depth : ℕ} {uid : String} (hblock : h.inside uid = none) : h.dumpTop info depth uid = none := by
  cases depth with
  | zero => rfl
  | succ depth => rw [dumpTop, inside_eq_none.mp hblock]

/-- An object of a topology, in its dump. -/
theorem mem_uidToObj_within {t uid : String} {fs : List Flow} (huid : uid ∈ uidToObj (fs.map (Flow.within t)))
    (hfs : h.flows t = some fs) :
    ∃ l flow isSource, h.inside t = some l ∧ flow ∈ l ∧ (flow.near isSource).obj = true ∧
      (flow.near isSource).port.uid = uid := by
  obtain ⟨flow, hflow, isSource, hobj, heq⟩ := mem_uidToObj.mp huid
  exact ⟨_, flow, isSource, by rw [inside, hfs]; rfl, hflow, hobj, heq⟩

namespace Layered

variable (hlay : h.Layered top level)

include hlay

/-- Only the topology itself is on the level of it. -/
theorem eq_top {uid : String} (hwithin : h.Within top uid) (hlevel : level uid = 0) : uid = top := by
  cases hwithin with
  | top => rfl
  | obj isSource hwithin hl hmem hobj =>
      have := hlay.obj _ _ _ _ hwithin hl hmem hobj
      omega

theorem height_add {uid : String} (hwithin : h.Within top uid) : h.height uid + level uid ≤ h.height top := by
  induction hwithin with
  | top => rw [hlay.zero]; exact Nat.le_refl _
  | obj isSource hwithin hl hmem hobj ih =>
      have hlevel := hlay.obj _ _ _ _ hwithin hl hmem hobj
      have hheight := height_lt hl hmem hobj
      omega

theorem leads {isSource : Bool} {x p : ObjPort} (hleads : h.Leads isSource x p) (hwithin : h.Within top x.port.uid) :
    p = x ∨ level x.port.uid < level p.port.uid := by
  induction hleads with
  | refl => exact .inl rfl
  | inner hl hmem hfar hobj _ ih =>
      have hlevel := hlay.obj _ _ _ _ hwithin hl hmem hobj
      rcases ih (.obj _ hwithin hl hmem hobj) with rfl | hlt
      · exact .inr (by omega)
      · exact .inr (by omega)

end Layered

/-- The last topology that a climb or a descent goes through. -/
theorem Leads.cases_tail {isSource : Bool} {x p : ObjPort} (hleads : h.Leads isSource x p) :
    p = x ∨ ∃ q l flow, h.Leads isSource x q ∧ h.inside q.port.uid = some l ∧ flow ∈ l ∧
      flow.far isSource = q.inner ∧ (flow.near isSource).obj = true ∧ flow.near isSource = p := by
  induction hleads with
  | refl => exact .inl rfl
  | @inner x p l flow hl hmem hfar hobj _ ih =>
      refine .inr ?_
      rcases ih with rfl | ⟨q, l', flow', hleads, hrest⟩
      · exact ⟨x, l, flow, .refl x, hl, hmem, hfar, hobj, rfl⟩
      · exact ⟨q, l', flow', .inner hl hmem hfar hobj hleads, hrest⟩

/-! ### One round -/

variable (h) in
/-- What a port becomes in a round: a port of a block stays, one of a topology gives way to
what is connected to it from within. -/
def Unfolds (isSource : Bool) (p q : Port) : Prop :=
  (h.inside p.uid = none ∧ q = p) ∨
    ∃ l flow, h.inside p.uid = some l ∧ flow ∈ l ∧ flow.far isSource = ⟨p, false⟩ ∧
      (flow.near isSource).obj = true ∧ (flow.near isSource).port = q

theorem within_eq_inner_iff {port p : Port} : port.within p.uid = ⟨p, false⟩ ↔ port = p := by
  constructor
  · exact fun heq => congrArg ObjPort.port heq
  · rintro rfl
    simp [Port.within]

theorem mem_sub_iff {isSource : Bool} {p q : Port} {fs : List Flow} (hfs : h.flows p.uid = some fs) :
    (∃ subConn ∈ fs, (if isSource then subConn.dst else subConn.src) = p ∧
        (if isSource then subConn.src else subConn.dst).uid ≠ p.uid ∧
        q = (if isSource then subConn.src else subConn.dst)) ↔
      h.Unfolds isSource p q := by
  have hinside : h.inside p.uid = some (fs.map (Flow.within p.uid)) := by rw [inside, hfs]; rfl
  unfold Unfolds
  rw [or_iff_right fun hnone => by rw [hinside] at hnone; cases hnone.1]
  constructor
  · rintro ⟨f, hf, hfar, hobj, rfl⟩
    refine ⟨_, f.within p.uid, hinside, List.mem_map_of_mem hf, ?_⟩
    cases isSource with
    | true => exact ⟨within_eq_inner_iff.mpr hfar, within_obj.mpr hobj, rfl⟩
    | false => exact ⟨within_eq_inner_iff.mpr hfar, within_obj.mpr hobj, rfl⟩
  · rintro ⟨l, flow, hl, hflow, hfar, hobj, rfl⟩
    obtain rfl := Option.some.inj (hinside.symm.trans hl)
    obtain ⟨f, hf, rfl⟩ := List.mem_map.mp hflow
    refine ⟨f, hf, ?_⟩
    cases isSource with
    | true => exact ⟨within_eq_inner_iff.mp hfar, within_obj.mp hobj, rfl⟩
    | false => exact ⟨within_eq_inner_iff.mp hfar, within_obj.mp hobj, rfl⟩

namespace Stage

variable {dump : Dump} (hstage : h.Stage top level info ℓ dump)

include hstage

theorem mem_resolvePorts {isSource : Bool} {p q : Port} :
    q ∈ dump.resolvePorts p isSource ↔ h.OnStage top level ℓ p.uid ∧ h.Unfolds isSource p q := by
  unfold Dump.resolvePorts
  cases hb : dump.block? p.uid with
  | none =>
      have hkey := Dump.block?_eq_none.mp hb
      simp only [List.not_mem_nil, false_iff]
      exact fun hp => hkey (hstage.complete _ hp.1)
  | some b =>
      obtain ⟨hon, depth, hdepth, hsub⟩ := hstage.members _ (Dump.mem_of_block? hb)
      simp only at hsub ⊢
      rw [and_iff_right hon]
      cases hfs : h.flows p.uid with
      | none =>
          have hnone := inside_eq_none.mpr hfs
          rw [hsub, dumpTop_none hnone, List.mem_singleton]
          unfold Unfolds
          rw [or_iff_left ?_, and_iff_right hnone]
          rintro ⟨l, flow, hl, -⟩
          rw [hnone] at hl
          cases hl
      | some fs =>
          obtain ⟨sub, hsome, hconns, -⟩ := dumpTop_some info hdepth hfs
          rw [hsub, hsome, ← mem_sub_iff hfs]
          simp only [hconns, List.mem_flatMap, List.mem_filter, decide_eq_true_eq, and_assoc]
          refine exists_congr fun f => and_congr_right fun _ => and_congr_right fun _ => ?_
          split_ifs <;> simp_all

theorem mem_foldedConns {x y : Port} :
    ⟨x, y⟩ ∈ dump.foldedConns ↔ ∃ conn ∈ dump.connections,
      (h.OnStage top level ℓ conn.src.uid ∧ h.Unfolds true conn.src x) ∧
        h.OnStage top level ℓ conn.dst.uid ∧ h.Unfolds false conn.dst y := by
  unfold Dump.foldedConns
  simp only [List.mem_flatMap, List.mem_map, hstage.mem_resolvePorts]
  refine exists_congr fun conn => and_congr_right fun _ => ?_
  constructor
  · rintro ⟨src, hsrc, dst, hdst, heq⟩
    cases heq
    exact ⟨hsrc, hdst⟩
  · rintro ⟨hsrc, hdst⟩
    exact ⟨x, hsrc, y, hdst, rfl⟩

/-- The connections from within the topologies on the stage. -/
theorem mem_hierConns {x y : Port} :
    ⟨x, y⟩ ∈ dump.hierConns ↔ ∃ t fs, h.OnStage top level ℓ t ∧ h.flows t = some fs ∧ ∃ f ∈ fs,
      ((f = ⟨x, y⟩ ∧ f.src.uid ≠ t ∧ f.dst.uid ≠ t) ∨
        f.src.uid = t ∧ f.dst.uid = t ∧ ⟨x, f.src⟩ ∈ dump.connections ∧ ⟨f.dst, y⟩ ∈ dump.connections) := by
  rw [Dump.mem_hierConns]
  constructor
  · rintro ⟨m, hm, sub, hsub, f, hf, hcases⟩
    obtain ⟨hon, depth, hdepth, hdump⟩ := hstage.members m hm
    cases hfs : h.flows m.1 with
    | none => rw [hdump, dumpTop_none (inside_eq_none.mpr hfs)] at hsub; cases hsub
    | some fs =>
        obtain ⟨sub', hsome, hconns, -⟩ := dumpTop_some info hdepth hfs
        obtain rfl : sub' = sub := Option.some.inj (hsome.symm.trans (hdump.symm.trans hsub))
        exact ⟨m.1, fs, hon, hfs, f, hconns ▸ hf, hcases⟩
  · rintro ⟨t, fs, hon, hfs, f, hf, hcases⟩
    obtain ⟨b, hb⟩ := hstage.complete t hon
    obtain ⟨-, depth, hdepth, hdump⟩ := hstage.members _ hb
    obtain ⟨sub, hsome, hconns, -⟩ := dumpTop_some info hdepth hfs
    exact ⟨(t, b), hb, sub, hdump.trans hsome, f, hconns.symm ▸ hf, hcases⟩

end Stage

/-! ### The levels of a path -/

section Levels

variable (hlay : h.Layered top level)

include hlay

/-- The ends of a flow between two objects. -/
theorem Layered.level_ends {u : String} {l : List ObjFlow} (hwithin : h.Within top u) (hl : h.inside u = some l)
    {f : ObjFlow} (hf : f ∈ l) (isSource : Bool) (hobj : (f.near isSource).obj = true) :
    level (f.near isSource).port.uid = level u + 1 :=
  hlay.obj u l f isSource hwithin hl hf hobj

/-- A climb or a descent to the next stage comes by a port on this one. -/
theorem Layered.unfold {isSource : Bool} {a p : ObjPort} (hleads : h.Leads isSource a p) (ha : a.obj = true)
    (hwithin : h.Within top a.port.uid) (hpos : 0 < level a.port.uid) (hlow : level a.port.uid ≤ ℓ)
    (hon : h.OnStage top level (ℓ + 1) p.port.uid) :
    ∃ q, h.Leads isSource a ⟨q, true⟩ ∧ h.OnStage top level ℓ q.uid ∧ h.Unfolds isSource q p.port := by
  obtain ⟨hpwithin, hppos, hplevel⟩ := hon
  rcases hplevel with hlast | ⟨hblock, hlt⟩
  · -- on the next level, so there is a topology of this one around it
    rcases hleads.cases_tail with rfl | ⟨q, l, flow, haq, hl, hmem, hfar, hobj, rfl⟩
    · omega
    · have hq := haq.within hwithin
      have hlevel := hlay.obj _ _ _ _ hq hl hmem hobj
      have hqobj : q = ⟨q.port, true⟩ := (outside_of_obj (haq.obj ha)).symm
      refine ⟨q.port, hqobj ▸ haq, ⟨hq, ?_, .inl (by omega)⟩, .inr ⟨l, flow, hl, hmem, hfar, hobj, rfl⟩⟩
      rcases hlay.leads haq hwithin with rfl | hlt <;> omega
  · have hpobj : p = ⟨p.port, true⟩ := (outside_of_obj (hleads.obj ha)).symm
    refine ⟨p.port, hpobj ▸ hleads, ⟨hpwithin, hppos, ?_⟩, .inl ⟨hblock, rfl⟩⟩
    rcases Nat.lt_succ_iff_lt_or_eq.mp hlt with hlt | heq
    · exact .inr ⟨hblock, hlt⟩
    · exact .inl heq

end Levels

/-- What a port unfolds to is one more step of a climb or a descent. -/
theorem Unfolds.leads {isSource : Bool} {p q : Port} (hunf : h.Unfolds isSource p q) {a : ObjPort}
    (hleads : h.Leads isSource a ⟨p, true⟩) : h.Leads isSource a ⟨q, true⟩ := by
  rcases hunf with ⟨-, rfl⟩ | ⟨l, flow, hl, hmem, hfar, hobj, rfl⟩
  · exact hleads
  · have hnear : flow.near isSource = ⟨(flow.near isSource).port, true⟩ := (outside_of_obj hobj).symm
    exact hnear ▸ hleads.snoc hl hmem hfar hobj

theorem Unfolds.unbroken {x x' y y' : Port} (hx : h.Unfolds true x x') (hy : h.Unfolds false y y')
    (hpath : h.Unbroken top ⟨x, true⟩ ⟨y, true⟩) : h.Unbroken top ⟨x', true⟩ ⟨y', true⟩ := by
  obtain ⟨t, l, f, hwithin, hl, hf, hsrc, hdst, hclimb, hdescend⟩ := (unbroken_iff rfl rfl).mp hpath
  exact (unbroken_iff rfl rfl).mpr ⟨t, l, f, hwithin, hl, hf, hsrc, hdst, hx.leads hclimb, hy.leads hdescend⟩

/-- A port that a path leaves from the outside. -/
theorem Unbroken.within_src {x : Port} {y : ObjPort} (hpath : h.Unbroken top ⟨x, true⟩ y) : h.Within top x.uid := by
  cases hpath with
  | direct hcarried =>
      obtain ⟨⟨t, l, hwithin, hl, hmem⟩, -⟩ := hcarried
      exact .obj true hwithin hl hmem rfl
  | through hcarried =>
      obtain ⟨⟨t, l, hwithin, hl, hmem⟩, -⟩ := hcarried
      exact .obj true hwithin hl hmem rfl

theorem Unbroken.within_dst {x y : ObjPort} (hpath : h.Unbroken top x y) (hy : y.obj = true) :
    h.Within top y.port.uid := by
  induction hpath with
  | direct hcarried =>
      obtain ⟨⟨t, l, hwithin, hl, hmem⟩, -⟩ := hcarried
      exact .obj false hwithin hl hmem hy
  | through _ _ _ ih => exact ih hy

theorem Unfolds.of_block {isSource : Bool} {p q : Port} (hunf : h.Unfolds isSource p q)
    (hblock : h.inside p.uid = none) : q = p := by
  rcases hunf with ⟨-, rfl⟩ | ⟨l, flow, hl, -⟩
  · rfl
  · rw [hblock] at hl
    cases hl

theorem PassThrough.uid_eq {s d : ObjPort} (hpass : h.PassThrough top s d) :
    ∃ fs, h.Within top s.port.uid ∧ h.flows s.port.uid = some fs ∧ ⟨s.port, d.port⟩ ∈ fs ∧
      d.port.uid = s.port.uid := by
  obtain ⟨⟨t, l, hwithin, hl, hmem⟩, hs, hd⟩ := hpass
  have hsuid := uid_of_null hl hmem true hs
  have hduid := uid_of_null hl hmem false hd
  obtain ⟨fs, f, hfs, hf, heq⟩ := mem_inside hl hmem
  have hflow : (⟨s.port, d.port⟩ : Flow) = f := by
    rw [show s = f.src.within t from congrArg ObjFlow.src heq, show d = f.dst.within t from congrArg ObjFlow.dst heq]
    rfl
  simp only [ObjFlow.near] at hsuid hduid
  refine ⟨fs, ?_, ?_, hflow ▸ hf, ?_⟩
  · rw [show s.port.uid = t from hsuid]; exact hwithin
  · rw [show s.port.uid = t from hsuid]; exact hfs
  · exact (show d.port.uid = t from hduid).trans (show s.port.uid = t from hsuid).symm

/-- A flow from an input to an output of one topology. -/
theorem passThrough_of_mem {t : String} {fs : List Flow} (hwithin : h.Within top t) (hfs : h.flows t = some fs)
    {f : Flow} (hf : f ∈ fs) (hsrc : f.src.uid = t) (hdst : f.dst.uid = t) :
    h.PassThrough top ⟨f.src, false⟩ ⟨f.dst, false⟩ := by
  have hinside : h.inside t = some (fs.map (Flow.within t)) := by rw [inside, hfs]; rfl
  have heq : f.within t = ⟨⟨f.src, false⟩, ⟨f.dst, false⟩⟩ := by
    simp [Flow.within, Port.within, hsrc, hdst]
  exact ⟨⟨t, _, hwithin, hinside, heq ▸ List.mem_map_of_mem hf⟩, rfl, rfl⟩

theorem OnStage.le {uid : String} (hon : h.OnStage top level ℓ uid) : level uid ≤ ℓ := by
  rcases hon.2.2 with heq | ⟨-, hlt⟩ <;> omega

theorem OnStage.level_eq {uid : String} (hon : h.OnStage top level ℓ uid) {fs : List Flow}
    (hfs : h.flows uid = some fs) : level uid = ℓ := by
  rcases hon.2.2 with heq | ⟨hblock, -⟩
  · exact heq
  · rw [inside_eq_none.mp hblock] at hfs
    cases hfs

/-- What is on the next stage and no deeper than this one is a block. -/
theorem OnStage.block {uid : String} (hon : h.OnStage top level (ℓ + 1) uid) (hle : level uid ≤ ℓ) :
    h.inside uid = none ∧ h.OnStage top level ℓ uid := by
  rcases hon.2.2 with heq | ⟨hblock, -⟩
  · omega
  · refine ⟨hblock, hon.1, hon.2.1, ?_⟩
    rcases Nat.lt_or_eq_of_le hle with hlt | heq
    · exact .inr ⟨hblock, hlt⟩
    · exact .inl heq

theorem PassedAbove.mono {ℓ' : ℕ} (hle : ℓ ≤ ℓ') {x y : Port} (hpassed : h.PassedAbove top level ℓ x y) :
    h.PassedAbove top level ℓ' x y := by
  obtain ⟨hx, hy, s, d, hpass, hs, hrest⟩ := hpassed
  exact ⟨hx, hy, s, d, hpass, by omega, hrest⟩

namespace Stage

variable {dump : Dump} (hlay : h.Layered top level) (hstage : h.Stage top level info ℓ dump) {x y : Port}

section

include hstage

theorem folded_sound (hmem : ⟨x, y⟩ ∈ dump.foldedConns) :
    h.Unbroken top ⟨x, true⟩ ⟨y, true⟩ ∨ h.PassedAbove top level (ℓ + 1) x y := by
  obtain ⟨conn, hconn, ⟨hsrc, hx⟩, hdst, hy⟩ := hstage.mem_foldedConns.mp hmem
  rcases (hstage.conns _ _ hsrc hdst).mp hconn with hpath | hpassed
  · exact .inl (hx.unbroken hy hpath)
  · obtain rfl := hx.of_block hpassed.1.2
    obtain rfl := hy.of_block hpassed.2.1.2
    exact .inr (hpassed.mono (Nat.le_succ ℓ))

theorem hier_sound (hx : h.OnStage top level (ℓ + 1) x.uid) (hy : h.OnStage top level (ℓ + 1) y.uid)
    (hmem : ⟨x, y⟩ ∈ dump.hierConns) :
    h.Unbroken top ⟨x, true⟩ ⟨y, true⟩ ∨ h.PassedAbove top level (ℓ + 1) x y := by
  obtain ⟨t, fs, hon, hfs, f, hf, (⟨rfl, hsrc, hdst⟩ | ⟨hsrc, hdst, hhead, htail⟩)⟩ := hstage.mem_hierConns.mp hmem
  · -- a flow between two objects
    have hinside : h.inside t = some (fs.map (Flow.within t)) := by rw [inside, hfs]; rfl
    have heq : Flow.within t ⟨x, y⟩ = ⟨⟨x, true⟩, ⟨y, true⟩⟩ := by
      simp only [Flow.within, Port.within, ObjFlow.mk.injEq, ObjPort.mk.injEq, true_and, decide_eq_true_eq]
      exact ⟨hsrc, hdst⟩
    exact .inl (.direct ⟨⟨t, _, hon.1, hinside, heq ▸ List.mem_map_of_mem hf⟩, .inl rfl⟩)
  · -- a pass-through, with what leads to it and what it leads to
    have hpass := passThrough_of_mem hon.1 hfs hf hsrc hdst
    have hlevel := hon.level_eq hfs
    have hxlow := (hstage.low _ hhead).1
    have hylow := (hstage.low _ htail).2
    have htopology : h.inside t ≠ none := fun hnone => by rw [inside_eq_none.mp hnone] at hfs; cases hfs
    have hin := ((hstage.conns _ _ (hx.block hxlow).2 (hsrc.symm ▸ hon)).mp hhead).resolve_right
      fun hpassed => htopology (hsrc ▸ hpassed.2.1.2)
    have hout := ((hstage.conns _ _ (hdst.symm ▸ hon) (hy.block hylow).2).mp htail).resolve_right
      fun hpassed => htopology (hdst ▸ hpassed.1.2)
    have hlevelsrc : level f.src.uid = ℓ := by rw [hsrc, hlevel]
    exact .inr ⟨⟨rfl, (hx.block hxlow).1⟩, ⟨rfl, (hy.block hylow).1⟩, ⟨f.src, false⟩, ⟨f.dst, false⟩, hpass,
      by rw [hlevelsrc]; exact Nat.lt_succ_self ℓ, by rw [hlevelsrc]; exact hxlow, by rw [hlevelsrc]; exact hylow,
      hin, hout⟩

theorem passed_complete (hpos : 0 < ℓ) (hx : h.OnStage top level (ℓ + 1) x.uid)
    (hy : h.OnStage top level (ℓ + 1) y.uid) (hpassed : h.PassedAbove top level (ℓ + 1) x y) :
    ⟨x, y⟩ ∈ dump.foldedConns ∨ ⟨x, y⟩ ∈ dump.hierConns := by
  obtain ⟨hxblock, hyblock, s, d, hpass, hslevel, hxs, hys, hin, hout⟩ := hpassed
  have hxon := (hx.block (by omega)).2
  have hyon := (hy.block (by omega)).2
  rcases Nat.lt_succ_iff_lt_or_eq.mp hslevel with hlt | heq
  · have hconn := (hstage.conns x y hxon hyon).mpr
      (.inr ⟨hxblock, hyblock, s, d, hpass, hlt, hxs, hys, hin, hout⟩)
    exact .inl (hstage.mem_foldedConns.mpr
      ⟨_, hconn, ⟨hxon, .inl ⟨hxblock.2, rfl⟩⟩, hyon, .inl ⟨hyblock.2, rfl⟩⟩)
  · obtain ⟨fs, hwithin, hfs, hmem, hduid⟩ := hpass.uid_eq
    have hon : h.OnStage top level ℓ s.port.uid := ⟨hwithin, by omega, .inl heq⟩
    have hhead : ⟨x, s.port⟩ ∈ dump.connections := (hstage.conns x s.port hxon hon).mpr (.inl hin)
    have htail : ⟨d.port, y⟩ ∈ dump.connections := (hstage.conns d.port y (hduid.symm ▸ hon) hyon).mpr (.inl hout)
    exact .inr (hstage.mem_hierConns.mpr ⟨s.port.uid, fs, hon, hfs, _, hmem, .inr ⟨rfl, hduid, hhead, htail⟩⟩)

end

include hlay hstage

theorem unbroken_complete (hpos : 0 < ℓ) (hx : h.OnStage top level (ℓ + 1) x.uid)
    (hy : h.OnStage top level (ℓ + 1) y.uid) (hpath : h.Unbroken top ⟨x, true⟩ ⟨y, true⟩) :
    ⟨x, y⟩ ∈ dump.foldedConns ∨ ⟨x, y⟩ ∈ dump.hierConns := by
  obtain ⟨u, l, f, hwithin, hl, hf, hsrc, hdst, hclimb, hdescend⟩ := (unbroken_iff rfl rfl).mp hpath
  have hsrclevel : level f.src.port.uid = level u + 1 := hlay.level_ends hwithin hl hf true hsrc
  have hdstlevel : level f.dst.port.uid = level u + 1 := hlay.level_ends hwithin hl hf false hdst
  have hsrcwithin : h.Within top f.src.port.uid := .obj true hwithin hl hf hsrc
  have hdstwithin : h.Within top f.dst.port.uid := .obj false hwithin hl hf hdst
  rcases Nat.lt_or_ge (level u) ℓ with hlow | hhigh
  · -- the flow lies above: both ends come from ports that are there now
    obtain ⟨p, hp, hpon, hpx⟩ := hlay.unfold hclimb hsrc hsrcwithin (by omega) (by omega) hx
    obtain ⟨q, hq, hqon, hqy⟩ := hlay.unfold hdescend hdst hdstwithin (by omega) (by omega) hy
    have hconn : ⟨p, q⟩ ∈ dump.connections :=
      (hstage.conns p q hpon hqon).mpr
        (.inl ((unbroken_iff rfl rfl).mpr ⟨u, l, f, hwithin, hl, hf, hsrc, hdst, hp, hq⟩))
    exact .inl (hstage.mem_foldedConns.mpr ⟨_, hconn, ⟨hpon, hpx⟩, hqon, hqy⟩)
  · -- the flow is in a topology on the stage, with the two ports for ends
    have hxle := hx.le
    have hyle := hy.le
    have hxeq : (⟨x, true⟩ : ObjPort) = f.src := by
      rcases hlay.leads hclimb hsrcwithin with heq | hlt
      · exact heq
      · simp only at hlt; omega
    have hyeq : (⟨y, true⟩ : ObjPort) = f.dst := by
      rcases hlay.leads hdescend hdstwithin with heq | hlt
      · exact heq
      · simp only at hlt; omega
    have hulevel : level u = ℓ := by
      have hxlevel : level x.uid = level f.src.port.uid := by rw [← hxeq]
      omega
    obtain ⟨fs, g, hfs, hg, rfl⟩ := mem_inside hl hf
    have hgeq : g = ⟨x, y⟩ := Flow.ext (congrArg ObjPort.port hxeq).symm (congrArg ObjPort.port hyeq).symm
    have hon : h.OnStage top level ℓ u := ⟨hwithin, by omega, .inl hulevel⟩
    exact .inr (hstage.mem_hierConns.mpr
      ⟨u, fs, hon, hfs, g, hg, .inl ⟨hgeq, within_obj.mp hsrc, within_obj.mp hdst⟩⟩)

/-- **One round of `flattenDump`.** -/
theorem flattenDump (hpos : 0 < ℓ) : h.Stage top level info (ℓ + 1) dump.flattenDump.2 where
  members := by
    intro m hm
    obtain ⟨member, hmember, hm⟩ := Dump.mem_flatBlocks hm
    obtain ⟨hon, depth, hdepth, hsub⟩ := hstage.members member hmember
    rcases Dump.mem_flatMembers.mp hm with ⟨hnone, rfl⟩ | ⟨sub, hsome, ⟨blockId, b⟩, hb, rfl⟩
    · refine ⟨⟨hon.1, hon.2.1, .inr ⟨?_, Nat.lt_succ_of_le hon.le⟩⟩, depth, hdepth, hsub⟩
      cases hfs : h.flows m.1 with
      | none => exact inside_eq_none.mpr hfs
      | some fs =>
          obtain ⟨sub, hsome, -⟩ := dumpTop_some info hdepth hfs
          rw [hsub, hsome] at hnone
          cases hnone
    · cases hfs : h.flows member.1 with
      | none => rw [hsub, dumpTop_none (inside_eq_none.mpr hfs)] at hsome; cases hsome
      | some fs =>
          obtain ⟨sub', hsome', -, hblocks⟩ := dumpTop_some info hdepth hfs
          obtain rfl : sub' = sub := Option.some.inj (hsome'.symm.trans (hsub.symm.trans hsome))
          obtain ⟨uid, huid, heq⟩ := (hblocks _).mp hb
          obtain ⟨rfl, rfl⟩ := Prod.mk.inj heq
          obtain ⟨l, flow, isSource, hl, hflow, hobj, rfl⟩ := mem_uidToObj_within huid hfs
          have hlevel := hlay.level_ends hon.1 hl hflow _ hobj
          have hheight := height_lt hl hflow hobj
          have hstagelevel := hon.level_eq hfs
          have hne : member.1 ≠ (flow.near isSource).port.uid := by
            intro hsame
            rw [← hsame] at hheight
            omega
          have hnext : level (flow.near isSource).port.uid = ℓ + 1 := by omega
          have hpos' : 0 < level (flow.near isSource).port.uid := by omega
          have hdepth' : h.height (flow.near isSource).port.uid < depth - 1 := by omega
          exact ⟨⟨.obj isSource hon.1 hl hflow hobj, hpos', .inl hnext⟩, depth - 1, hdepth', by simp [hne]⟩
  complete := by
    intro uid hon
    refine Dump.hasKey_flatBlocks.mpr ?_
    rcases Nat.lt_or_ge ℓ (level uid) with hlast | hlow
    · have hlevel : level uid = ℓ + 1 := by have := hon.le; omega
      cases hon.1 with
      | top => rw [hlay.zero] at hlevel; cases hlevel
      | @obj t l flow isSource hwithin hl hmem hobj =>
          have htlevel := hlay.level_ends hwithin hl hmem _ hobj
          obtain ⟨b, hb⟩ := hstage.complete t ⟨hwithin, by omega, .inl (by omega)⟩
          obtain ⟨-, depth, hdepth, hsub⟩ := hstage.members _ hb
          obtain ⟨fs, f, hfs, hf, rfl⟩ := mem_inside hl hmem
          obtain ⟨sub, hsome, -, hblocks⟩ := dumpTop_some info hdepth hfs
          have huid : ((f.within t).near isSource).port.uid ∈ uidToObj (fs.map (Flow.within t)) :=
            mem_uidToObj.mpr ⟨_, List.mem_map_of_mem hf, isSource, hobj, rfl⟩
          exact ⟨(t, b), hb, _, Dump.mem_flatMembers.mpr
            (.inr ⟨sub, hsub.trans hsome, _, (hblocks _).mpr ⟨_, huid, rfl⟩, rfl⟩)⟩
    · obtain ⟨hblock, hon'⟩ := hon.block hlow
      obtain ⟨b, hb⟩ := hstage.complete uid hon'
      obtain ⟨-, depth, -, hsub⟩ := hstage.members _ hb
      exact ⟨(uid, b), hb, b, Dump.mem_flatMembers.mpr (.inl ⟨hsub.trans (dumpTop_none hblock), rfl⟩)⟩
  low := by
    have hunf : ∀ {isSource : Bool} {p q : Port}, h.OnStage top level ℓ p.uid → h.Unfolds isSource p q →
        level q.uid ≤ ℓ + 1 := by
      rintro isSource p q hon (⟨-, rfl⟩ | ⟨l, flow, hl, hmem, -, hobj, rfl⟩)
      · exact Nat.le_succ_of_le hon.le
      · have := hlay.level_ends hon.1 hl hmem _ hobj
        have := hon.le
        omega
    rintro ⟨x, y⟩ hconn
    rcases List.mem_append.mp hconn with hfold | hhier
    · obtain ⟨conn, -, ⟨hsrc, hx⟩, hdst, hy⟩ := hstage.mem_foldedConns.mp hfold
      exact ⟨hunf hsrc hx, hunf hdst hy⟩
    · obtain ⟨t, fs, hon, hfs, f, hf, (⟨rfl, hsrc, hdst⟩ | ⟨-, -, hhead, htail⟩)⟩ := hstage.mem_hierConns.mp hhier
      · have hinside : h.inside t = some (fs.map (Flow.within t)) := by rw [inside, hfs]; rfl
        have hmem := List.mem_map_of_mem (f := Flow.within t) hf
        have hx : level x.uid = level t + 1 :=
          hlay.level_ends hon.1 hinside hmem true (within_obj.mpr hsrc)
        have hy : level y.uid = level t + 1 :=
          hlay.level_ends hon.1 hinside hmem false (within_obj.mpr hdst)
        have := hon.le
        exact ⟨by simp only; omega, by simp only; omega⟩
      · exact ⟨Nat.le_succ_of_le (hstage.low _ hhead).1, Nat.le_succ_of_le (hstage.low _ htail).2⟩
  conns := by
    intro x y hx hy
    refine List.mem_append.trans ⟨?_, ?_⟩
    · rintro (hfold | hhier)
      · exact hstage.folded_sound hfold
      · exact hstage.hier_sound hx hy hhier
    · rintro (hpath | hpassed)
      · exact unbroken_complete hlay hstage hpos hx hy hpath
      · exact hstage.passed_complete hpos hx hy hpassed

omit hlay in
/-- Without a topology on the stage, both ends of a connection are blocks. -/
theorem folded_blocks (hflat : ∀ uid, h.OnStage top level ℓ uid → h.inside uid = none)
    (hmem : ⟨x, y⟩ ∈ dump.flattenDump.2.connections) :
    (h.OnStage top level ℓ x.uid ∧ h.inside x.uid = none) ∧ h.OnStage top level ℓ y.uid ∧ h.inside y.uid = none := by
  rcases List.mem_append.mp hmem with hfold | hhier
  · obtain ⟨conn, -, ⟨hsrc, hx⟩, hdst, hy⟩ := hstage.mem_foldedConns.mp hfold
    obtain rfl := hx.of_block (hflat _ hsrc)
    obtain rfl := hy.of_block (hflat _ hdst)
    exact ⟨⟨hsrc, hflat _ hsrc⟩, hdst, hflat _ hdst⟩
  · obtain ⟨t, fs, hon, hfs, -⟩ := hstage.mem_hierConns.mp hhier
    rw [inside_eq_none.mp (hflat t hon)] at hfs
    cases hfs

omit hlay in
/-- Whether a round finds a hierarchy. -/
theorem flattenDump_fst : dump.flattenDump.1 = false ↔ ∀ uid, h.OnStage top level ℓ uid → h.inside uid = none := by
  have hsub : ∀ m ∈ dump.blocks, m.2.isHier = false ↔ h.inside m.1 = none := by
    intro m hm
    obtain ⟨-, depth, hdepth, hsub⟩ := hstage.members m hm
    unfold DumpBlock.isHier
    rw [hsub]
    cases hfs : h.flows m.1 with
    | none =>
        have hblock := inside_eq_none.mpr hfs
        simp [dumpTop_none hblock, hblock]
    | some fs =>
        obtain ⟨sub, hsome, -⟩ := dumpTop_some info hdepth hfs
        simp [hsome, inside_eq_none, hfs]
  unfold Dump.flattenDump
  simp only [List.any_eq_false, Bool.not_eq_true]
  constructor
  · intro hall uid hon
    obtain ⟨b, hb⟩ := hstage.complete uid hon
    exact (hsub _ hb).mp (hall _ hb)
  · exact fun hall m hm => (hsub m hm).mpr (hall m.1 (hstage.members m hm).1)

end Stage

section Flat

variable (hlay : h.Layered top level)

include hlay

/-- Without a topology on the stage, nothing is below it. -/
theorem Layered.level_le (hpos : 0 < ℓ) (hflat : ∀ uid, h.OnStage top level ℓ uid → h.inside uid = none)
    {uid : String} (hwithin : h.Within top uid) : level uid ≤ ℓ := by
  induction hwithin with
  | top => rw [hlay.zero]; exact Nat.zero_le ℓ
  | obj isSource hwithin hl hmem hobj ih =>
      have hlevel := hlay.level_ends hwithin hl hmem _ hobj
      rcases Nat.lt_or_eq_of_le ih with hlt | heq
      · omega
      · have hblock := hflat _ ⟨hwithin, by omega, .inl heq⟩
        rw [hblock] at hl
        cases hl

variable (info) in
/-- The dump that the rounds start with. -/
theorem Layered.stage_one {depth : ℕ} (hdepth : h.height top < depth) {fs : List Flow} (hfs : h.flows top = some fs) :
    ∃ dump, h.dumpTop info depth top = some dump ∧ h.Stage top level info 1 dump := by
  obtain ⟨dump, hdump, hconns, hblocks⟩ := dumpTop_some info hdepth hfs
  have hinside : h.inside top = some (fs.map (Flow.within top)) := by rw [inside, hfs]; rfl
  have hnear : ∀ f ∈ fs, ∀ isSource, ((f.within top).near isSource).obj = true →
      level ((f.within top).near isSource).port.uid = 1 := by
    intro f hf isSource hobj
    have := hlay.level_ends .top hinside (List.mem_map_of_mem hf) _ hobj
    rw [this, hlay.zero]
  have hlow : ∀ f ∈ fs, ∀ isSource, level ((f.within top).near isSource).port.uid ≤ 1 := by
    intro f hf isSource
    cases hobj : ((f.within top).near isSource).obj with
    | true => exact Nat.le_of_eq (hnear f hf isSource hobj)
    | false =>
        have huid := uid_of_null hinside (List.mem_map_of_mem hf) isSource hobj
        rw [huid, hlay.zero]
        exact Nat.zero_le 1
  refine ⟨dump, hdump, ⟨?_, ?_, ?_, ?_⟩⟩
  · intro m hm
    obtain ⟨uid, huid, rfl⟩ := (hblocks m).mp hm
    obtain ⟨l, flow, isSource, hl, hflow, hobj, rfl⟩ := mem_uidToObj_within huid hfs
    have hlevel := hlay.level_ends .top hl hflow _ hobj
    have hheight := height_lt hl hflow hobj
    have hne : top ≠ (flow.near isSource).port.uid := by
      intro hsame
      rw [← hsame] at hheight
      omega
    have hone : level (flow.near isSource).port.uid = 1 := by rw [hlevel, hlay.zero]
    have hpos : 0 < level (flow.near isSource).port.uid := by omega
    have hdepth' : h.height (flow.near isSource).port.uid < depth - 1 := by omega
    exact ⟨⟨.obj isSource .top hl hflow hobj, hpos, .inl hone⟩, depth - 1, hdepth', by simp [hne]⟩
  · intro uid hon
    have hlevel : level uid = 1 := by have := hon.le; have := hon.2.1; omega
    cases hon.1 with
    | top => rw [hlay.zero] at hlevel; cases hlevel
    | @obj t l flow isSource hwithin hl hmem hobj =>
        have htlevel := hlay.level_ends hwithin hl hmem _ hobj
        obtain rfl := hlay.eq_top hwithin (by omega)
        obtain rfl := Option.some.inj (hinside.symm.trans hl)
        exact ⟨_, (hblocks _).mpr ⟨_, mem_uidToObj.mpr ⟨flow, hmem, isSource, hobj, rfl⟩, rfl⟩⟩
  · intro conn hconn
    exact ⟨hlow conn (hconns ▸ hconn) true, hlow conn (hconns ▸ hconn) false⟩
  · intro x y hx hy
    rw [hconns]
    constructor
    · intro hmem
      have hxtop : x.uid ≠ top := fun heq => by have := hx.2.1; rw [heq, hlay.zero] at this; cases this
      have hytop : y.uid ≠ top := fun heq => by have := hy.2.1; rw [heq, hlay.zero] at this; cases this
      have heq : Flow.within top ⟨x, y⟩ = ⟨⟨x, true⟩, ⟨y, true⟩⟩ := by
        simp only [Flow.within, Port.within, ObjFlow.mk.injEq, ObjPort.mk.injEq, true_and, decide_eq_true_eq]
        exact ⟨hxtop, hytop⟩
      exact .inl (.direct ⟨⟨top, _, .top, hinside, heq ▸ List.mem_map_of_mem hmem⟩, .inl rfl⟩)
    · rintro (hpath | ⟨-, -, s, d, -, hs, hxs, -⟩)
      · obtain ⟨u, l, f, hwithin, hl, hf, hsrc, hdst, hclimb, hdescend⟩ := (unbroken_iff rfl rfl).mp hpath
        have hsrclevel : level f.src.port.uid = level u + 1 := hlay.level_ends hwithin hl hf true hsrc
        have hdstlevel : level f.dst.port.uid = level u + 1 := hlay.level_ends hwithin hl hf false hdst
        have hxle := hx.le
        have hyle := hy.le
        have hxeq : (⟨x, true⟩ : ObjPort) = f.src := by
          rcases hlay.leads hclimb (.obj true hwithin hl hf hsrc) with heq | hlt
          · exact heq
          · simp only at hlt; omega
        have hyeq : (⟨y, true⟩ : ObjPort) = f.dst := by
          rcases hlay.leads hdescend (.obj false hwithin hl hf hdst) with heq | hlt
          · exact heq
          · simp only at hlt; omega
        have hxlevel : level x.uid = level f.src.port.uid := by rw [← hxeq]
        obtain rfl := hlay.eq_top hwithin (by omega)
        obtain ⟨fs', g, hfs', hg, rfl⟩ := mem_inside hl hf
        obtain rfl := Option.some.inj (hfs.symm.trans hfs')
        have hgeq : g = ⟨x, y⟩ := Flow.ext (congrArg ObjPort.port hxeq).symm (congrArg ObjPort.port hyeq).symm
        exact hgeq ▸ hg
      · have := hx.2.1
        omega

/-- **The rounds end**, and leave the dump of a stage without topologies. -/
theorem Layered.flattenLoop :
    ∀ {rounds ℓ : ℕ} {dump : Dump}, 0 < ℓ → h.height top < ℓ + rounds → h.Stage top level info ℓ dump →
      ∃ ℓ' last, 0 < ℓ' ∧ h.Stage top level info ℓ' last ∧
        Dump.flattenLoop (rounds + 1) dump = some last.flattenDump.2 ∧
        ∀ uid, h.OnStage top level ℓ' uid → h.inside uid = none := by
  intro rounds
  induction rounds with
  | zero =>
      intro ℓ dump hpos hlow hstage
      have hflat : ∀ uid, h.OnStage top level ℓ uid → h.inside uid = none := by
        intro uid hon
        cases hfs : h.flows uid with
        | none => exact inside_eq_none.mpr hfs
        | some fs =>
            have := hon.level_eq hfs
            have := hlay.height_add hon.1
            omega
      refine ⟨ℓ, dump, hpos, hstage, ?_, hflat⟩
      rw [Dump.flattenLoop_succ, hstage.flattenDump_fst.mpr hflat]
      rfl
  | succ rounds ih =>
      intro ℓ dump hpos hlow hstage
      rw [Dump.flattenLoop_succ]
      cases hfound : dump.flattenDump.1 with
      | false => exact ⟨ℓ, dump, hpos, hstage, rfl, hstage.flattenDump_fst.mp hfound⟩
      | true => exact ih (Nat.succ_pos ℓ) (by omega) (hstage.flattenDump hlay hpos)

variable (info) in
/-- Connections and blocks of the flat dump. -/
theorem Layered.dumpFlat {depth rounds : ℕ} (hdepth : h.height top < depth) (hrounds : h.height top < rounds)
    {fs : List Flow} (hfs : h.flows top = some fs) :
    ∃ dump, h.dumpFlat info depth rounds top = some dump ∧
      (∀ uid, Dump.HasKey uid dump.blocks ↔ h.Within top uid ∧ h.inside uid = none) ∧
      ∀ x y : Port, ⟨x, y⟩ ∈ dump.connections ↔ h.BlockPort ⟨x, true⟩ ∧ h.BlockPort ⟨y, true⟩ ∧
        (h.Unbroken top ⟨x, true⟩ ⟨y, true⟩ ∨ h.PassedOnce top level x y) := by
  obtain ⟨rounds, rfl⟩ : ∃ n, rounds = n + 1 := ⟨rounds - 1, by omega⟩
  obtain ⟨first, hfirst, hstage⟩ := hlay.stage_one info hdepth hfs
  have hlow : h.height top < 1 + rounds := by omega
  obtain ⟨ℓ, last, hpos, hlast, hloop, hflat⟩ := hlay.flattenLoop Nat.one_pos hlow hstage
  have hnext := hlast.flattenDump hlay hpos
  have hblocklevel : ∀ {uid}, h.Within top uid → h.inside uid = none → h.OnStage top level (ℓ + 1) uid := by
    intro uid hwithin hblock
    have hle := hlay.level_le hpos hflat hwithin
    refine ⟨hwithin, Nat.pos_of_ne_zero fun hzero => ?_, .inr ⟨hblock, by omega⟩⟩
    rw [hlay.eq_top hwithin hzero, inside_eq_none, hfs] at hblock
    cases hblock
  refine ⟨last.flattenDump.2, by rw [Hierarchy.dumpFlat, hfirst]; exact hloop, ?_, ?_⟩
  · intro uid
    constructor
    · rintro ⟨b, hb⟩
      have hon := (hnext.members _ hb).1
      exact ⟨hon.1, (hon.block (hlay.level_le hpos hflat hon.1)).1⟩
    · exact fun hblock => hnext.complete uid (hblocklevel hblock.1 hblock.2)
  · intro x y
    constructor
    · intro hmem
      obtain ⟨⟨hx, hxblock⟩, hy, hyblock⟩ := hlast.folded_blocks hflat hmem
      refine ⟨⟨rfl, hxblock⟩, ⟨rfl, hyblock⟩, ?_⟩
      rcases (hnext.conns x y (hblocklevel hx.1 hxblock) (hblocklevel hy.1 hyblock)).mp hmem with hpath | hpassed
      · exact .inl hpath
      · obtain ⟨-, -, s, d, hpass, -, hrest⟩ := hpassed
        exact .inr ⟨s, d, hpass, hrest⟩
    · rintro ⟨hxblock, hyblock, hjoined⟩
      have hends : h.Within top x.uid ∧ h.Within top y.uid := by
        rcases hjoined with hpath | ⟨s, d, -, -, -, hin, hout⟩
        · exact ⟨hpath.within_src, hpath.within_dst rfl⟩
        · exact ⟨hin.within_src, hout.within_dst rfl⟩
      refine (hnext.conns x y (hblocklevel hends.1 hxblock.2) (hblocklevel hends.2 hyblock.2)).mpr ?_
      rcases hjoined with hpath | ⟨s, d, hpass, hxs, hys, hin, hout⟩
      · exact .inl hpath
      · obtain ⟨fs', hwithin, hfs', -⟩ := hpass.uid_eq
        have hle := hlay.level_le hpos hflat hwithin
        exact .inr ⟨hxblock, hyblock, s, d, hpass, by omega, hxs, hys, hin, hout⟩

end Flat

/-! ### The dump and the commit -/

theorem PassedOnce.bridged {x y : Port} (hpassed : h.PassedOnce top level x y) :
    h.Bridged top ⟨x, true⟩ ⟨y, true⟩ := by
  obtain ⟨s, d, hpass, -, -, hin, hout⟩ := hpassed
  exact ⟨s, d, .inl hpass, ⟨s, hpass, hin⟩, d, hpass, hout⟩

/-- **The flat dump ends, and shows no more than a commit connects.** It shows it all where
what the commit joins at pass-throughs is joined through one that is no higher. -/
theorem dumpFlat_completeFlows (h : Hierarchy) (info : String → DumpInfo) (top : String) (level : String → ℕ)
    (hlay : h.Layered top level) (htop : (h.flows top).isSome = true) (depth rounds : ℕ)
    (hdepth : h.height top < depth) (hrounds : h.height top < rounds) :
    ∃ dump, h.dumpFlat info depth rounds top = some dump ∧
      (∀ uid, Dump.HasKey uid dump.blocks ↔ h.Within top uid ∧ h.inside uid = none) ∧
      (∀ x y : Port, ⟨x, y⟩ ∈ dump.connections ↔ h.BlockPort ⟨x, true⟩ ∧ h.BlockPort ⟨y, true⟩ ∧
        (h.Unbroken top ⟨x, true⟩ ⟨y, true⟩ ∨ h.PassedOnce top level x y)) ∧
      (∀ x y : Port, ⟨x, y⟩ ∈ dump.connections → ⟨⟨x, true⟩, ⟨y, true⟩⟩ ∈ h.completeFlows depth top) ∧
      ((∀ x y : Port, ⟨x, y⟩ ∈ dump.connections ↔ ⟨⟨x, true⟩, ⟨y, true⟩⟩ ∈ h.completeFlows depth top) ↔
        ∀ x y : Port, h.BlockPort ⟨x, true⟩ → h.BlockPort ⟨y, true⟩ → h.Bridged top ⟨x, true⟩ ⟨y, true⟩ →
          h.Unbroken top ⟨x, true⟩ ⟨y, true⟩ ∨ h.PassedOnce top level x y) := by
  obtain ⟨fs, hfs⟩ := Option.isSome_iff_exists.mp htop
  obtain ⟨dump, hdump, hblocks, hconns⟩ := hlay.dumpFlat info hdepth hrounds hfs
  obtain ⟨flows, heq, hflows⟩ := completeFlows_squashed h hdepth
  have hcommit : ∀ x y : Port, ⟨⟨x, true⟩, ⟨y, true⟩⟩ ∈ h.completeFlows depth top ↔
      h.BlockPort ⟨x, true⟩ ∧ h.BlockPort ⟨y, true⟩ ∧
        (h.Unbroken top ⟨x, true⟩ ⟨y, true⟩ ∨ h.Bridged top ⟨x, true⟩ ⟨y, true⟩) := by
    intro x y
    rw [heq]
    exact mem_completePassThroughFlows_squashed hflows
  refine ⟨dump, hdump, hblocks, hconns, ?_, ?_⟩
  · intro x y hmem
    obtain ⟨hx, hy, hjoined⟩ := (hconns x y).mp hmem
    exact (hcommit x y).mpr ⟨hx, hy, hjoined.imp_right PassedOnce.bridged⟩
  · constructor
    · intro hall x y hx hy hbridged
      exact ((hconns x y).mp ((hall x y).mpr ((hcommit x y).mpr ⟨hx, hy, .inr hbridged⟩))).2.2
    · intro hall x y
      rw [hconns, hcommit]
      refine and_congr_right fun hx => and_congr_right fun hy => ⟨Or.imp_right PassedOnce.bridged, ?_⟩
      rintro (hpath | hbridged)
      · exact .inl hpath
      · exact hall x y hx hy hbridged

def passerLevel (uid : String) : ℕ := if uid = "topology" then 0 else 1

theorem passer_layered : passerHierarchy.Layered "topology" passerLevel := by
  refine ⟨rfl, ?_⟩
  intro t l flow isSource _ hl hmem hobj
  obtain ⟨fs, f, hfs, hf, rfl⟩ := mem_inside hl hmem
  unfold passerHierarchy passerFlows at hfs
  simp only at hfs
  split_ifs at hfs with htop hpasser
  · subst htop
    obtain rfl := (Option.some.inj hfs).symm
    simp only [List.mem_cons, List.not_mem_nil, or_false] at hf
    rcases hf with rfl | rfl <;> cases isSource <;> decide
  · subst hpasser
    obtain rfl := (Option.some.inj hfs).symm
    simp only [List.mem_cons, List.not_mem_nil, or_false] at hf
    subst hf
    cases isSource <;> exact absurd hobj (by decide)

/-- The dump of the pass-through between two blocks shows what is connected. -/
theorem passer_dump : ∃ dump, passerHierarchy.dumpFlat (fun uid => ⟨uid, [], []⟩) 3 3 "topology" = some dump ∧
    (⟨⟨"ping", "out0"⟩, ⟨"pong", "in0"⟩⟩ ∈ dump.connections →
      ⟨⟨⟨"ping", "out0"⟩, true⟩, ⟨⟨"pong", "in0"⟩, true⟩⟩ ∈ passerHierarchy.completeFlows 3 "topology") := by
  obtain ⟨dump, hdump, -, -, hsub, -⟩ := dumpFlat_completeFlows passerHierarchy (fun uid => ⟨uid, [], []⟩) "topology"
    passerLevel passer_layered rfl 3 3 (by decide) (by decide)
  exact ⟨dump, hdump, hsub _ _⟩

end Hierarchy

end PothosCore.Framework
