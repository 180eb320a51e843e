import PothosCore.Fault
import Mathlib.Data.List.Induction

/-!
# PothosCore.Plugin.Path

Paths of the plugin registry: their text, the check that the constructor makes, and
the list of their names.

A path is kept as the list of its names. The text is read back from it and is the text
the path was made from, with one exception: the constructor takes the empty text too,
which has no names, and `/` is read back for it.
-/

namespace PothosCore.Plugins

/-- May the character stand in a name? -/
def nameChar (c : Char) : Bool :=
  ('A' ≤ c && c ≤ 'Z') || ('a' ≤ c && c ≤ 'z') || ('0' ≤ c && c ≤ '9') || c == '_' || c == '-'

/-- One name of a path. -/
structure Name where
  text : String
  nonempty : text.toList ≠ []
  chars : ∀ c ∈ text.toList, nameChar c = true
  deriving DecidableEq

/-- The name with these letters, if they make one. -/
def Name.ofList (letters : List Char) : Option Name :=
  if h : letters ≠ [] ∧ letters.all nameChar = true then
    some ⟨.ofList letters, by simpa using h.1, by simpa using List.all_eq_true.mp h.2⟩
  else none

/-- `Pothos::PluginPath`. -/
structure PluginPath where
  nodes : List Name
  deriving DecidableEq

/-- `Poco::StringTokenizer(path, "/")`: what stands between the separators. There is no
token in the empty text. -/
class StringTokenizer where
  tokens : List Char → List (List Char)
  tokens_nil : tokens [] = []
  tokens_eq : ∀ letters, letters ≠ [] → tokens letters = letters.splitOn '/'

open StringTokenizer (tokens tokens_nil tokens_eq)

/-- `Pothos::PluginPathError` -/
def pathError (path message : String) : Fault :=
  .thrown "PluginPathError" ("Pothos::PluginPath(" ++ path ++ ")") message

/-- The loop of `validatePathString`. -/
def validateTokens (path : String) : Bool → List (List Char) → Except Fault Unit
  | _, [] => .ok ()
  | first, name :: names =>
      if first && !name.isEmpty then .error (pathError path "must start with root slash")
      else if !first && name.isEmpty then .error (pathError path "contains an empty name")
      else if name.all nameChar then validateTokens path false names
      else .error (pathError path "contains non-alphanumeric-slashy-dashy name")

def validatePathString [StringTokenizer] (path : String) : Except Fault Unit :=
  if path = "/" then .ok () else validateTokens path true (tokens path.toList)

namespace PluginPath

/-- `PluginPath(const std::string &)`. The names are the tokens that are not empty. -/
def ofString [StringTokenizer] (path : String) : Except Fault PluginPath := do
  validatePathString path
  .ok ⟨(tokens path.toList).filterMap Name.ofList⟩

/-- The default path. -/
def root : PluginPath := ⟨[]⟩

def listNodes (path : PluginPath) : List Name := path.nodes

/-- A slash before each name. -/
def letters (nodes : List Name) : List Char := nodes.flatMap fun n => '/' :: n.text.toList

def toString (path : PluginPath) : String :=
  if path.nodes = [] then "/" else .ofList (letters path.nodes)

/-- `join` with a single name. -/
def join (path : PluginPath) (name : Name) : PluginPath := ⟨path.nodes ++ [name]⟩

@[simp] theorem listNodes_join (path : PluginPath) (name : Name) :
    (path.join name).listNodes = path.listNodes ++ [name] := rfl

@[simp] theorem listNodes_root : root.listNodes = [] := rfl

end PluginPath

/-! ### Text and names -/

theorem Name.ofList_toList (name : Name) : Name.ofList name.text.toList = some name := by
  have h : name.text.toList ≠ [] ∧ name.text.toList.all nameChar = true :=
    ⟨name.nonempty, List.all_eq_true.mpr name.chars⟩
  rw [Name.ofList, dif_pos h, Option.some.injEq, Name.mk.injEq, String.ofList_toList]

theorem Name.slash_notMem (name : Name) : '/' ∉ name.text.toList := by
  intro h
  have hslash : nameChar '/' = true := name.chars '/' h
  exact absurd hslash (by decide)

/-- The tokens are an empty one, before the first slash, and the names. -/
theorem splitOn_letters (nodes : List Name) :
    (PluginPath.letters nodes).splitOn '/' = [] :: nodes.map (·.text.toList) := by
  induction nodes using List.reverseRecOn with
  | nil => rfl
  | append_singleton nodes n ih =>
      have h : PluginPath.letters (nodes ++ [n]) = PluginPath.letters nodes ++ '/' :: n.text.toList := by
        simp [PluginPath.letters]
      rw [h, List.splitOn_append_cons_self, ih, List.splitOn_eq_singleton n.slash_notMem, List.map_append]
      rfl

theorem letters_eq_intercalate (nodes : List Name) :
    PluginPath.letters nodes = ['/'].intercalate ([] :: nodes.map (·.text.toList)) := by
  rw [← splitOn_letters, List.intercalate_splitOn]

theorem tokens_letters [StringTokenizer] {nodes : List Name} (h : nodes ≠ []) :
    tokens (PluginPath.letters nodes) = [] :: nodes.map (·.text.toList) := by
  have hne : PluginPath.letters nodes ≠ [] := by
    cases nodes with
    | nil => exact absurd rfl h
    | cons n nodes => exact List.cons_ne_nil _ _
  rw [tokens_eq _ hne, splitOn_letters]

/-- Letters that pass the check after the first token make names. -/
theorem validateTokens_false_iff (path : String) (names : List (List Char)) :
    validateTokens path false names = .ok () ↔ ∃ nodes : List Name, names = nodes.map (·.text.toList) := by
  induction names with
  | nil => exact ⟨fun _ => ⟨[], rfl⟩, fun _ => rfl⟩
  | cons name names ih =>
      rw [validateTokens, Bool.false_and, if_neg Bool.false_ne_true, Bool.not_false, Bool.true_and]
      by_cases hempty : name = []
      · subst hempty
        constructor
        · intro h
          cases h
        · intro h
          obtain ⟨nodes, h⟩ := h
          cases nodes with
          | nil => cases h
          | cons n nodes => exact absurd (List.cons.inj h).1.symm n.nonempty
      · rw [if_neg (by simpa using hempty)]
        by_cases hchars : name.all nameChar = true
        · rw [if_pos hchars, ih]
          constructor
          · intro h
            obtain ⟨nodes, rfl⟩ := h
            exact ⟨⟨.ofList name, by simpa using hempty, by simpa using List.all_eq_true.mp hchars⟩ :: nodes,
              by simp⟩
          · intro h
            obtain ⟨nodes, h⟩ := h
            cases nodes with
            | nil => cases h
            | cons n nodes => exact ⟨nodes, (List.cons.inj h).2⟩
        · rw [if_neg hchars]
          constructor
          · intro h
            cases h
          · intro h
            obtain ⟨nodes, h⟩ := h
            cases nodes with
            | nil => cases h
            | cons n nodes =>
                rw [(List.cons.inj h).1] at hchars
                exact absurd (List.all_eq_true.mpr n.chars) hchars

theorem PluginPath.ofString_slash [StringTokenizer] : ofString "/" = .ok root := by
  have htokens : tokens "/".toList = [[], []] := (tokens_eq _ (by decide)).trans (by decide)
  rw [ofString, validatePathString, if_pos rfl, htokens]
  rfl

/-- **The names are read back** from the text of a path. -/
theorem PluginPath.ofString_toString [StringTokenizer] (path : PluginPath) : ofString path.toString = .ok path := by
  obtain ⟨nodes⟩ := path
  by_cases h : nodes = []
  · subst h
    exact ofString_slash
  · have htext : toString ⟨nodes⟩ = .ofList (letters nodes) := if_neg h
    have htokens := tokens_letters h
    have hvalid : validatePathString (.ofList (letters nodes)) = .ok () := by
      rw [validatePathString]
      split
      · rfl
      · rw [String.toList_ofList, htokens]
        exact (validateTokens_false_iff _ _).mpr ⟨nodes, rfl⟩
    have hnames : (nodes.map (·.text.toList)).filterMap Name.ofList = nodes := by
      have hsome : Name.ofList ∘ (·.text.toList) = fun n : Name => some n := funext Name.ofList_toList
      rw [List.filterMap_map, hsome, List.filterMap_some]
    rw [ofString, htext, hvalid, String.toList_ofList, htokens, List.filterMap_cons_none rfl, hnames]
    rfl

/-- **What is accepted is the text of a path**, or empty. -/
theorem PluginPath.toString_of_ofString [StringTokenizer] {text : String} {path : PluginPath}
    (h : ofString text = .ok path) : text = "" ∨ path.toString = text := by
  have hvalid : validatePathString text = .ok () := by
    cases hv : validatePathString text with
    | error e => rw [ofString, hv] at h; cases h
    | ok _ => rfl
  by_cases hslash : text = "/"
  · subst hslash
    rw [ofString_slash] at h
    cases h
    exact .inr rfl
  · rw [validatePathString, if_neg hslash] at hvalid
    by_cases hempty : text.toList = []
    · exact .inl (String.toList_inj.mp hempty)
    · have htokens : tokens text.toList = text.toList.splitOn '/' := tokens_eq _ hempty
      have hletters : ['/'].intercalate (tokens text.toList) = text.toList := by
        rw [htokens, List.intercalate_splitOn]
      cases hs : tokens text.toList with
      | nil => exact absurd (htokens.symm.trans hs) (List.splitOn_ne_nil _ _)
      | cons name names =>
          rw [hs, validateTokens] at hvalid
          cases name with
          | cons c name => cases hvalid
          | nil =>
              obtain ⟨nodes, rfl⟩ := (validateTokens_false_iff _ _).mp hvalid
              have htext : text = .ofList (letters nodes) := by
                rw [letters_eq_intercalate, ← hs, hletters, String.ofList_toList]
              have hnodes : nodes ≠ [] := by
                intro hnil
                subst hnil
                exact hempty (by rw [htext]; rfl)
              have hback := ofString_toString ⟨nodes⟩
              rw [toString, if_neg hnodes, ← htext, h] at hback
              rw [Except.ok.inj hback, toString, if_neg hnodes, ← htext]
              exact .inr rfl

/-- The text of a joined path. -/
theorem PluginPath.ofString_join [StringTokenizer] (path : PluginPath) (name : Name) :
    ofString (path.toString ++ (if path.toString = "/" then "" else "/") ++ name.text) = .ok (path.join name) := by
  have htext : path.toString ++ (if path.toString = "/" then "" else "/") ++ name.text =
      (path.join name).toString := by
    obtain ⟨nodes⟩ := path
    rw [← String.toList_inj]
    by_cases h : nodes = []
    · subst h
      simp [toString, join, letters]
    · have hroot : String.ofList (letters nodes) ≠ "/" := by
        intro heq
        have hlen : (letters nodes).length = 1 := by
          rw [← String.toList_ofList (l := letters nodes), heq]
          rfl
        cases nodes with
        | nil => exact h rfl
        | cons n nodes =>
            have hname := List.length_pos_iff.mpr n.nonempty
            simp only [letters, List.flatMap_cons, List.cons_append, List.length_cons, List.length_append] at hlen
            omega
      simp [toString, join, letters, h] at hroot ⊢
      simp [hroot]
  rw [htext, ofString_toString]

instance : StringTokenizer where
  tokens letters := if letters.isEmpty then [] else letters.splitOn '/'
  tokens_nil := rfl
  tokens_eq letters h := if_neg (by simpa using h)

example : PluginPath.ofString "foo-bar/my_module" =
    .error (pathError "foo-bar/my_module" "must start with root slash") := by decide

end PothosCore.Plugins
