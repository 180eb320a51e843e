import PothosCore.Plugin.Path

/-!
# PothosCore.Plugin.PathText

Paths as `PluginPath` stores them: by their text. The two-path constructor, `join`,
`listNodes` and `operator==` work on the text, and the constructor checks it again.

A text that passes the check is empty, or a slash, or a slash before each of its names
(`PathText.forms`). The first two have no names and are not the same text. They are where
the operations and the list of names part:

* the two-path constructor puts one text after the other, and a lone slash beside another
  text leaves a name empty (`ofPaths_iff`);
* two texts without names are equal to themselves only (`equal_iff`).
-/

namespace PothosCore.Plugins

open StringTokenizer (tokens tokens_nil tokens_eq)

/-- `Pothos::PluginPath` as stored: the text, which the constructor has checked. -/
structure PathText [StringTokenizer] where
  text : String
  valid : validatePathString text = .ok ()
  deriving DecidableEq

namespace PathText

variable [StringTokenizer]

/-- `PluginPath(const std::string &)`. -/
def ofText (path : String) : Except Fault PathText :=
  match h : validatePathString path with
  | .ok () => .ok ⟨path, h⟩
  | .error e => .error e

/-- `PluginPath(const PluginPath &, const PluginPath &)`. -/
def ofPaths (path0 path1 : PathText) : Except Fault PathText := ofText (path0.text ++ path1.text)

def join (path : PathText) (subPath : String) : Except Fault PathText :=
  let joiner := if path.text = "/" then "" else "/"
  ofText (path.text ++ joiner ++ subPath)

/-- The tokens of the text, less the empty ones. -/
def listNodes (path : PathText) : List String :=
  ((tokens path.text.toList).filter fun name => !name.isEmpty).map .ofList

/-- `operator==`. -/
def equal (lhs rhs : PathText) : Bool := lhs.text == rhs.text

end PathText

/-- A relative sub-path: names with a slash between them. A single name is one. -/
structure SubPath where
  head : Name
  tail : List Name

namespace SubPath

def nodes (sub : SubPath) : List Name := sub.head :: sub.tail

def text (sub : SubPath) : String := .ofList (sub.head.text.toList ++ PluginPath.letters sub.tail)

theorem letters_nodes (sub : SubPath) : PluginPath.letters sub.nodes = '/' :: sub.text.toList := by
  rw [text, String.toList_ofList]
  rfl

end SubPath

/-- The text is a slash, or a sequence of names with a slash before each. -/
def PathText.WellFormed (text : String) : Prop :=
  text = "/" ∨ ∃ nodes : List Name, nodes ≠ [] ∧ text = .ofList (PluginPath.letters nodes)

/-! ### Texts that are accepted -/

theorem Name.text_injective : Function.Injective Name.text := by
  intro n n' h
  cases n
  cases n'
  cases h
  rfl

theorem letters_append (nodes nodes' : List Name) :
    PluginPath.letters (nodes ++ nodes') = PluginPath.letters nodes ++ PluginPath.letters nodes' :=
  List.flatMap_append

/-- Names with a slash before each are more than a slash. -/
theorem letters_ne_slash (nodes : List Name) : PluginPath.letters nodes ≠ ['/'] := by
  intro h
  have hsplit := splitOn_letters nodes
  rw [h] at hsplit
  cases nodes with
  | nil => cases hsplit
  | cons n nodes => exact n.nonempty (List.cons.inj (List.cons.inj hsplit).2).1.symm

theorem ofList_letters_ne_root (nodes : List Name) : String.ofList (PluginPath.letters nodes) ≠ "/" := by
  intro h
  apply letters_ne_slash nodes
  rw [← String.toList_ofList (l := PluginPath.letters nodes), h]
  rfl

theorem ofList_letters_ne_empty (n : Name) (nodes : List Name) :
    String.ofList (PluginPath.letters (n :: nodes)) ≠ "" := by
  intro h
  have hletters : PluginPath.letters (n :: nodes) = [] := by
    rw [← String.toList_ofList (l := PluginPath.letters (n :: nodes)), h]
    rfl
  cases hletters

section

variable [StringTokenizer]

/-- The empty text has no names. -/
theorem ofString_empty : PluginPath.ofString "" = .ok ⟨[]⟩ := by
  have htokens : tokens "".toList = [] := tokens_nil
  rw [PluginPath.ofString, validatePathString, if_neg (by decide), htokens]
  rfl

theorem validate_of_ofString {text : String} {path : PluginPath} (h : PluginPath.ofString text = .ok path) :
    validatePathString text = .ok () := by
  obtain ⟨u, hu, _⟩ := bind_ok h
  exact hu

theorem validate_letters (nodes : List Name) : validatePathString (.ofList (PluginPath.letters nodes)) = .ok () := by
  cases nodes with
  | nil => exact validate_of_ofString ofString_empty
  | cons n nodes => exact validate_of_ofString (PluginPath.ofString_toString ⟨n :: nodes⟩)

/-- **The texts the constructor accepts.** -/
theorem validate_iff (text : String) :
    validatePathString text = .ok () ↔ text = "/" ∨ ∃ nodes : List Name, text = .ofList (PluginPath.letters nodes) := by
  constructor
  · intro h
    have hof : PluginPath.ofString text = .ok ⟨(tokens text.toList).filterMap Name.ofList⟩ := by
      rw [PluginPath.ofString, h]
      rfl
    rcases PluginPath.toString_of_ofString hof with hempty | htext
    · exact .inr ⟨[], hempty⟩
    · rw [← htext, PluginPath.toString]
      split
      · exact .inl rfl
      · exact .inr ⟨_, rfl⟩
  · intro h
    rcases h with rfl | ⟨nodes, rfl⟩
    · exact validate_of_ofString PluginPath.ofString_slash
    · exact validate_letters nodes

/-- A text with an empty token after the first is refused, unless it is a slash. -/
theorem not_validate_of_empty_name {text : String} (hroot : text ≠ "/")
    (hempty : [] ∈ (text.toList.splitOn '/').tail) : validatePathString text ≠ .ok () := by
  intro h
  rcases (validate_iff text).mp h with h | ⟨nodes, rfl⟩
  · exact hroot h
  · rw [String.toList_ofList, splitOn_letters, List.tail_cons] at hempty
    obtain ⟨n, _, hn⟩ := List.mem_map.mp hempty
    exact n.nonempty hn

end

namespace PathText

section

variable [StringTokenizer]

theorem ofText_ok {text : String} (h : validatePathString text = .ok ()) : ofText text = .ok ⟨text, h⟩ := by
  unfold ofText
  split
  · rfl
  · next e he =>
      rw [h] at he
      cases he

theorem ofText_inv {text : String} {p : PathText} (h : ofText text = .ok p) : p.text = text := by
  unfold ofText at h
  split at h
  · cases h
    rfl
  · cases h

theorem exists_ofText_iff (text : String) :
    (∃ p, ofText text = .ok p) ↔ validatePathString text = .ok () := by
  constructor
  · intro h
    obtain ⟨p, hp⟩ := h
    rw [← ofText_inv hp]
    exact p.valid
  · intro h
    exact ⟨_, ofText_ok h⟩

/-- **A path is a slash or has a slash before each of its names.** There may be no names, and
then the text is empty. -/
theorem forms (p : PathText) : p.text = "/" ∨ ∃ nodes : List Name, p.text = .ofList (PluginPath.letters nodes) :=
  (validate_iff p.text).mp p.valid

/-! ### The names of a path -/

@[simp] theorem listNodes_root {p : PathText} (h : p.text = "/") : p.listNodes = [] := by
  have htokens : tokens "/".toList = [[], []] := (tokens_eq _ (by decide)).trans (by decide)
  rw [listNodes, h, htokens]
  rfl

@[simp] theorem listNodes_letters {p : PathText} {nodes : List Name} (h : p.text = .ofList (PluginPath.letters nodes)) :
    p.listNodes = nodes.map (·.text) := by
  have hkept : (nodes.map (·.text.toList)).filter (fun name => !name.isEmpty) = nodes.map (·.text.toList) := by
    rw [List.filter_eq_self]
    intro name hname
    obtain ⟨n, _, rfl⟩ := List.mem_map.mp hname
    simpa using n.nonempty
  have hback : (nodes.map (·.text.toList)).map String.ofList = nodes.map (·.text) := by
    rw [List.map_map]
    exact List.map_congr_left fun n _ => String.ofList_toList
  rw [listNodes, h, String.toList_ofList]
  cases nodes with
  | nil =>
      have htokens : tokens (PluginPath.letters []) = [] := tokens_nil
      rw [htokens]
      rfl
  | cons n nodes =>
      rw [tokens_letters (List.cons_ne_nil n nodes), List.filter_cons_of_neg (by simp), hkept, hback]

theorem listNodes_empty {p : PathText} (h : p.text = "") : p.listNodes = [] :=
  @listNodes_letters _ p [] h

/-- The names of the text are those of the path that the registry works on. -/
theorem listNodes_of_ofString (p : PathText) {path : PluginPath} (h : PluginPath.ofString p.text = .ok path) :
    p.listNodes = path.listNodes.map (·.text) := by
  rcases PluginPath.toString_of_ofString h with hempty | htext
  · rw [hempty, ofString_empty] at h
    cases h
    rw [listNodes_empty hempty]
    rfl
  · rw [PluginPath.toString] at htext
    split at htext
    · next hnil =>
        rw [listNodes_root htext.symm, PluginPath.listNodes, hnil]
        rfl
    · exact listNodes_letters htext.symm

/-! ### Two paths in one -/

/-- The two-path constructor makes the path of the names of both. -/
def Concatenates (p q : PathText) : Prop := ∃ r, ofPaths p q = .ok r ∧ r.listNodes = p.listNodes ++ q.listNodes

theorem concatenates_letters {p q : PathText} {nodes nodes' : List Name}
    (hp : p.text = .ofList (PluginPath.letters nodes)) (hq : q.text = .ofList (PluginPath.letters nodes')) :
    Concatenates p q := by
  have htext : p.text ++ q.text = .ofList (PluginPath.letters (nodes ++ nodes')) := by
    rw [hp, hq, letters_append, String.ofList_append]
  have hvalid : validatePathString (p.text ++ q.text) = .ok () := by
    rw [htext]
    exact validate_letters _
  refine ⟨⟨_, hvalid⟩, ofText_ok hvalid, ?_⟩
  rw [listNodes_letters htext, listNodes_letters hp, listNodes_letters hq, List.map_append]

/-- A text without names adds nothing to a slash. -/
theorem concatenates_root {p q : PathText} (h : p.text = "/" ∧ q.text = "" ∨ p.text = "" ∧ q.text = "/") :
    Concatenates p q := by
  rcases h with ⟨hp, hq⟩ | ⟨hp, hq⟩
  · have htext : p.text ++ q.text = "/" := by rw [hp, hq]; rfl
    have hvalid : validatePathString (p.text ++ q.text) = .ok () := by
      rw [htext]
      exact validate_of_ofString PluginPath.ofString_slash
    refine ⟨⟨_, hvalid⟩, ofText_ok hvalid, ?_⟩
    rw [listNodes_root htext, listNodes_root hp, listNodes_empty hq]
    rfl
  · have htext : p.text ++ q.text = "/" := by rw [hp, hq]; rfl
    have hvalid : validatePathString (p.text ++ q.text) = .ok () := by
      rw [htext]
      exact validate_of_ofString PluginPath.ofString_slash
    refine ⟨⟨_, hvalid⟩, ofText_ok hvalid, ?_⟩
    rw [listNodes_root htext, listNodes_root hq, listNodes_empty hp]
    rfl

/-- The first token of an accepted text is empty. -/
theorem empty_mem_splitOn (p : PathText) : [] ∈ p.text.toList.splitOn '/' := by
  rcases p.forms with hp | ⟨nodes, hp⟩
  · rw [hp]
    decide
  · rw [hp, String.toList_ofList, splitOn_letters]
    exact List.mem_cons_self

/-- A slash before another text leaves the name between them empty. -/
theorem not_concatenates_root_left {p q : PathText} (hp : p.text = "/") (hq : q.text ≠ "") : ¬ Concatenates p q := by
  intro h
  obtain ⟨r, hr, _⟩ := h
  have hvalid : validatePathString (p.text ++ q.text) = .ok () := (exists_ofText_iff _).mp ⟨r, hr⟩
  apply not_validate_of_empty_name _ _ hvalid
  · intro hroot
    rw [hp, ← String.toList_inj, String.toList_append] at hroot
    exact hq (String.toList_inj.mp (List.cons.inj hroot).2)
  · have hsplit : (p.text ++ q.text).toList.splitOn '/' = [] :: q.text.toList.splitOn '/' := by
      rw [hp, String.toList_append]
      exact List.splitOn_append_cons_self [] q.text.toList
    rw [hsplit, List.tail_cons]
    exact q.empty_mem_splitOn

/-- A slash after another text leaves the last name empty. -/
theorem not_concatenates_root_right {p q : PathText} (hq : q.text = "/") (hp : p.text ≠ "") : ¬ Concatenates p q := by
  intro h
  obtain ⟨r, hr, _⟩ := h
  have hvalid : validatePathString (p.text ++ q.text) = .ok () := (exists_ofText_iff _).mp ⟨r, hr⟩
  apply not_validate_of_empty_name _ _ hvalid
  · intro hroot
    have hlen := congrArg (·.toList.length) hroot
    simp only [hq, String.toList_append, List.length_append] at hlen
    apply hp
    rw [← String.toList_inj]
    exact List.length_eq_zero_iff.mp (Nat.add_eq_right.mp hlen)
  · have hsplit : (p.text ++ q.text).toList.splitOn '/' = p.text.toList.splitOn '/' ++ [[]] := by
      rw [hq, String.toList_append]
      exact List.splitOn_append_cons_self p.text.toList []
    rw [hsplit, List.tail_append_of_ne_nil (List.splitOn_ne_nil _ _)]
    exact List.mem_append_right _ List.mem_cons_self

/-- **When two paths make one**: neither is a lone slash, or the other is empty. -/
theorem ofPaths_iff (p q : PathText) :
    Concatenates p q ↔ p.text = "" ∨ q.text = "" ∨ p.text ≠ "/" ∧ q.text ≠ "/" := by
  constructor
  · intro h
    by_cases hp : p.text = ""
    · exact .inl hp
    by_cases hq : q.text = ""
    · exact .inr (.inl hq)
    refine .inr (.inr ⟨?_, ?_⟩)
    · intro hroot
      exact not_concatenates_root_left hroot hq h
    · intro hroot
      exact not_concatenates_root_right hroot hp h
  · intro h
    rcases p.forms with hp | ⟨nodes, hp⟩ <;> rcases q.forms with hq | ⟨nodes', hq⟩
    · rw [hp, hq] at h
      exact absurd h (by decide)
    · rw [hp] at h
      rcases h with h | h | h
      · exact absurd h (by decide)
      · exact concatenates_root (.inl ⟨hp, h⟩)
      · exact absurd rfl h.1
    · rw [hq] at h
      rcases h with h | h | h
      · exact concatenates_root (.inr ⟨h, hq⟩)
      · exact absurd h (by decide)
      · exact absurd rfl h.2
    · exact concatenates_letters hp hq

/-! ### A path and a sub-path -/

/-- `join` makes the path of the names of both. -/
def Joins (p : PathText) (sub : SubPath) : Prop :=
  ∃ r, p.join sub.text = .ok r ∧ r.listNodes = p.listNodes ++ sub.nodes.map (·.text)

/-- The names of the two texts that `join` puts together. -/
theorem join_text (p : PathText) (sub : SubPath) :
    ∃ nodes : List Name, p.listNodes = nodes.map (·.text) ∧
      p.text ++ (if p.text = "/" then "" else "/") ++ sub.text = .ofList (PluginPath.letters (nodes ++ sub.nodes)) := by
  have hsub : "/" ++ sub.text = .ofList (PluginPath.letters sub.nodes) := by
    have hslash : "/".toList = ['/'] := rfl
    rw [sub.letters_nodes, ← String.toList_inj, String.toList_append, hslash, String.toList_ofList]
    exact List.singleton_append
  rcases p.forms with hp | ⟨nodes, hp⟩
  · refine ⟨[], listNodes_root hp, ?_⟩
    rw [if_pos hp, hp, List.nil_append, ← hsub]
    exact congrArg (· ++ sub.text) String.append_empty
  · refine ⟨nodes, listNodes_letters hp, ?_⟩
    rw [if_neg (by rw [hp]; exact ofList_letters_ne_root nodes), String.append_assoc, hsub, hp, letters_append,
      String.ofList_append]

/-- **A sub-path joins every path**, the slash and the empty text included. -/
theorem joins (p : PathText) (sub : SubPath) : Joins p sub := by
  obtain ⟨nodes, hnodes, htext⟩ := join_text p sub
  have hvalid : validatePathString (.ofList (PluginPath.letters (nodes ++ sub.nodes))) = .ok () :=
    validate_letters _
  refine ⟨⟨_, hvalid⟩, ?_, ?_⟩
  · rw [join, htext]
    exact ofText_ok hvalid
  · rw [listNodes_letters rfl, hnodes, List.map_append]

/-! ### Equality -/

/-- Two paths are equal when they have the same names. -/
def ComparesNodes (p q : PathText) : Prop := p.equal q = true ↔ p.listNodes = q.listNodes

/-- **When equal paths are those of equal names**: unless one is a slash and the other is empty. -/
theorem equal_iff (p q : PathText) :
    ComparesNodes p q ↔ ¬ (p.text = "" ∧ q.text = "/" ∨ p.text = "/" ∧ q.text = "") := by
  have hequal : p.equal q = true ↔ p.text = q.text := beq_iff_eq
  rw [ComparesNodes, hequal]
  rcases p.forms with hp | ⟨nodes, hp⟩ <;> rcases q.forms with hq | ⟨nodes', hq⟩
  · simp [hp, hq]
  · rw [listNodes_root hp, listNodes_letters hq, hp, hq]
    cases nodes' with
    | nil => decide
    | cons n nodes' =>
        have hroot := (ofList_letters_ne_root (n :: nodes')).symm
        have hempty := ofList_letters_ne_empty n nodes'
        refine iff_of_true (iff_of_false hroot (List.cons_ne_nil _ _).symm) ?_
        rintro (⟨h, _⟩ | ⟨_, h⟩)
        · exact absurd h (by decide)
        · exact hempty h
  · rw [listNodes_letters hp, listNodes_root hq, hp, hq]
    cases nodes with
    | nil => decide
    | cons n nodes =>
        have hroot := ofList_letters_ne_root (n :: nodes)
        have hempty := ofList_letters_ne_empty n nodes
        refine iff_of_true (iff_of_false hroot (List.cons_ne_nil _ _)) ?_
        rintro (⟨h, _⟩ | ⟨_, h⟩)
        · exact hempty h
        · exact absurd h (by decide)
  · rw [listNodes_letters hp, listNodes_letters hq]
    have hslash : ¬ (p.text = "" ∧ q.text = "/" ∨ p.text = "/" ∧ q.text = "") := by
      rw [hp, hq]
      simp [ofList_letters_ne_root]
    refine iff_of_true ⟨?_, ?_⟩ hslash
    · intro h
      have hsplit := congrArg (fun text : String => text.toList.splitOn '/') h
      simp only [hp, hq, String.toList_ofList, splitOn_letters, List.cons.injEq, true_and] at hsplit
      have htext := congrArg (List.map String.ofList) hsplit
      simpa only [List.map_map, Function.comp_def, String.ofList_toList] using htext
    · intro h
      rw [hp, hq, (List.map_inj_right fun _ _ hn => Name.text_injective hn).mp h]

/-! ### What the constructor accepts -/

/-- **The constructor accepts what is well formed**, and the empty text. -/
theorem accepts_iff (text : String) : ((∃ p, ofText text = .ok p) ↔ WellFormed text) ↔ text ≠ "" := by
  rw [exists_ofText_iff, validate_iff]
  constructor
  · intro h hempty
    subst hempty
    rcases h.mp (.inr ⟨[], rfl⟩) with hroot | ⟨nodes, hne, htext⟩
    · exact absurd hroot (by decide)
    · cases nodes with
      | nil => exact hne rfl
      | cons n nodes => exact ofList_letters_ne_empty n nodes htext.symm
  · intro hempty
    constructor
    · intro h
      rcases h with hroot | ⟨nodes, htext⟩
      · exact .inl hroot
      · refine .inr ⟨nodes, ?_, htext⟩
        intro hnil
        rw [htext, hnil] at hempty
        exact hempty rfl
    · intro h
      rcases h with hroot | ⟨nodes, _, htext⟩
      · exact .inl hroot
      · exact .inr ⟨nodes, htext⟩

/-- **The algebra of paths.** A sub-path joins every path. Two paths make one exactly when
neither is a lone slash or one is empty, equality is that of the names unless one of the
paths is a slash and the other empty, and the constructor is exact except for the empty text. -/
theorem path_algebra_iff (p q : PathText) (sub : SubPath) (text : String) :
    Joins p sub ∧
      (Concatenates p q ↔ p.text = "" ∨ q.text = "" ∨ p.text ≠ "/" ∧ q.text ≠ "/") ∧
      (ComparesNodes p q ↔ ¬ (p.text = "" ∧ q.text = "/" ∨ p.text = "/" ∧ q.text = "")) ∧
      (((∃ r, ofText text = .ok r) ↔ WellFormed text) ↔ text ≠ "") :=
  ⟨joins p sub, ofPaths_iff p q, equal_iff p q, accepts_iff text⟩

end

/-- The default path twice, an empty path beside it, and the empty text. -/
theorem not_path_algebra :
    ofPaths ⟨"/", rfl⟩ ⟨"/", rfl⟩ = .error (pathError "//" "contains an empty name") ∧
      ¬ Concatenates ⟨"/", rfl⟩ ⟨"/", rfl⟩ ∧ ¬ ComparesNodes ⟨"", rfl⟩ ⟨"/", rfl⟩ ∧
      ¬ ((∃ r, ofText "" = .ok r) ↔ WellFormed "") := by
  refine ⟨by decide, ?_, ?_, ?_⟩
  · exact not_concatenates_root_left rfl (by decide)
  · rw [equal_iff]
    decide
  · rw [accepts_iff]
    decide

end PathText

end PothosCore.Plugins
