import Specializer.Proofs.Instance.Sharing
import Specializer.Proofs.Mangle.Types
import Specializer.Proofs.Types.History

/-!
# Names of instances and closures

The name of an instance lists, from the outermost module down, the names of the modules around it
with their arguments. Read from the left it leads to one instance: where it has led so far fixes the
next module by its name, and with the module how many arguments follow.
-/

set_option autoImplicit false

namespace Specializer

open TypeStore RunState Mangle

/-- Names are those that creation gives, read in the present store, and every closure stands in the
list of its owner under its number. -/
structure Titled (p : Program) (s : RunState) : Prop where
  name : ∀ ⦃id i⦄, s.instances.get? id = some i → ∃ m text base,
    p.tree.readModule i.source = .ok m ∧ p.symbols.name m.name = .ok text ∧
      s.Base text i.parent base ∧ Mangle.instanceName s.types base i.arguments = .ok i.name
  symbol : ∀ ⦃id c⦄, s.closures.get? id = some c → ∃ i, s.instances.get? c.owner = some i ∧
    c.symbol = Mangle.closureName i.name c.index ∧ i.closures[c.index]? = some id

theorem RunState.Base.keep {s t : RunState} {text base : String} {parent : Option InstanceId}
    (h : s.Base text parent base) (hKeeps : s.instances.Keeps t.instances) :
    t.Base text parent base := by
  cases h with
  | top => exact .top
  | inside hOuter =>
    obtain ⟨k, hk, hShell⟩ := hKeeps hOuter
    rw [← Instance.name_eq_of_shell hShell]
    exact .inside hk

theorem Mangle.instanceName_mono {s t : TypeStore} (hExt : s.Extends t) {base name : String}
    {given : List Argument} (h : instanceName s base given = .ok name) :
    instanceName t base given = .ok name := by
  obtain ⟨texts, hTexts, hName⟩ := instanceName_eq_ok_iff.mp h
  exact instanceName_eq_ok_iff.mpr ⟨texts, hTexts.imp fun _ _ => argument_mono hExt, hName⟩

namespace Fresh

variable {p : Program} {s : RunState} {m : ModuleDecl} {i : Instance} {closures : List Closure}

theorem closure_at (h : Fresh p s m i closures) {c : Closure} {index : Nat}
    (hc : closures[index]? = some c) :
    c.owner = i.id ∧ c.index = index ∧ c.symbol = closureName i.name index ∧
      i.closures[index]? = some ⟨s.closures.size + index⟩ := by
  obtain ⟨shells, hShells, hNumbered⟩ := h.shells
  rw [h.closures_eq, List.getElem?_map, hc]
  simp only [hNumbered, numbered, List.getElem?_map, List.getElem?_zipIdx, Option.map_map,
    Option.map_eq_some_iff] at hc
  obtain ⟨shell, hShell, rfl⟩ := hc
  obtain ⟨hIndex, rfl⟩ := List.getElem?_eq_some_iff.mp hShell
  have hOf := hShells.get (hShells.length_eq ▸ hIndex) hIndex
  simpa using hOf.symbol

end Fresh

namespace Titled

variable {p : Program} {s t : RunState}

theorem start (p : Program) (types : TypeStore) : Titled p (.start types) where
  name _ _ h := by simp [RunState.start, Arena.empty, Arena.get?] at h
  symbol _ _ h := by simp [RunState.start, Arena.empty, Arena.get?] at h

theorem of_keeps (hTitled : Titled p s) (hGrows : Grows s t) (hBack : t.instances.Keeps s.instances)
    (hClosures : t.closures = s.closures) : Titled p t where
  name id j hj := by
    obtain ⟨i, hi, hShell⟩ := hBack hj
    obtain ⟨m, text, base, hDecl, hText, hBase, hName⟩ := hTitled.name hi
    rw [Instance.source_eq_of_shell hShell] at hDecl
    rw [Instance.parent_eq_of_shell hShell] at hBase
    rw [Instance.arguments_eq_of_shell hShell, Instance.name_eq_of_shell hShell] at hName
    exact ⟨m, text, base, hDecl, hText, hBase.keep hGrows.instances,
      instanceName_mono hGrows.types hName⟩
  symbol id c hc := by
    rw [hClosures] at hc
    obtain ⟨i, hi, hSymbol, hListed⟩ := hTitled.symbol hc
    obtain ⟨j, hj, hShell⟩ := hGrows.instances hi
    refine ⟨j, hj, ?_, ?_⟩
    · rw [hSymbol, Instance.name_eq_of_shell hShell]
    · rw [Instance.closures_eq_of_shell hShell, hListed]

theorem enroll {m : ModuleDecl} {i : Instance} {closures : List Closure}
    (hTitled : Titled p s) (hFresh : Fresh p s m i closures)
    (hGrows : Grows s (s.enroll i closures)) : Titled p (s.enroll i closures) where
  name id j hj := by
    rcases get?_enroll hFresh.id_eq hj with ⟨rfl, rfl⟩ | hj
    · obtain ⟨text, base, before, hText, hBase, hExt, hName⟩ := hFresh.name
      exact ⟨m, text, base, hFresh.decl, hText, hBase.keep hGrows.instances,
        instanceName_mono hExt hName⟩
    · obtain ⟨n, text, base, hDecl, hText, hBase, hName⟩ := hTitled.name hj
      exact ⟨n, text, base, hDecl, hText, hBase.keep hGrows.instances, hName⟩
  symbol id c hc := by
    rcases Sound.get?_foldl_push hc with hc | ⟨index, hIndex, rfl⟩
    · obtain ⟨j, hj, hSymbol, hListed⟩ := hTitled.symbol hc
      exact ⟨j, get?_push_instances i hj, hSymbol, hListed⟩
    · obtain ⟨hOwner, rfl, hSymbol, hListed⟩ := hFresh.closure_at hIndex
      refine ⟨i, ?_, hSymbol, hListed⟩
      rw [hOwner, hFresh.id_eq]
      exact Arena.get?_push_next _ _

theorem step (hTitled : Titled p s) (h : Step p s t) : Titled p t := by
  have hGrows := h.grows
  cases h with
  | work h =>
    cases h with
    | advance h =>
      cases h with
      | retyped h =>
        refine hTitled.of_keeps hGrows ?_ h.closures_eq
        rw [h.instances_eq]
        exact .refl _
      | hit => exact hTitled.of_keeps hGrows (.refl _) rfl
      | miss => exact hTitled.of_keeps hGrows (.refl _) rfl
      | enter hFresh => exact hTitled.enroll hFresh hGrows
    | resolve id field =>
      exact hTitled.of_keeps hGrows (keeps_modify _ id (shell_resolve field _)).2 rfl
    | adopt id made => exact hTitled.of_keeps hGrows (keeps_modify _ id (shell_adopt made)).2 rfl
  | take => exact hTitled.of_keeps hGrows (.refl _) rfl
  | processed => exact hTitled.of_keeps hGrows (.refl _) rfl

theorem steps (hTitled : Titled p s) (h : Steps p s t) : Titled p t := by
  induction h with
  | refl => exact hTitled
  | tail _ hStep ih => exact ih.step hStep

theorem after_start (p : Program) (types : TypeStore) (calls : List Call) :
    Titled p (.after p calls (.start types)) :=
  (start p types).steps ((Sound.start p types).steps_after calls)

end Titled

/-- What an instance adds to the name of the one around it: the name of its module and its
arguments. -/
def Instance.Parts (p : Program) (types : TypeStore) (i : Instance) (parts : List String) : Prop :=
  ∃ m text texts, p.tree.readModule i.source = .ok m ∧ p.symbols.name m.name = .ok text ∧
    List.Forall₂ (fun a text => argument types a = .ok text) i.arguments texts ∧
    parts = escape text :: texts

theorem Instance.Parts.segment {p : Program} {types : TypeStore} {i : Instance}
    {parts : List String} (h : i.Parts p types parts) :
    ∀ part ∈ parts, Segment part.toList := by
  obtain ⟨m, text, texts, -, -, hTexts, rfl⟩ := h
  intro part hPart
  rcases List.mem_cons.mp hPart with rfl | hPart
  · exact segment_escape text
  · obtain ⟨_, -, hText⟩ := exists_mem_left_of_forall₂ hTexts hPart
    exact segment_argument hText

theorem Instance.Parts.segment_flatten {p : Program} {types : TypeStore} {path : List Instance}
    {lists : List (List String)} (hLists : List.Forall₂ (Instance.Parts p types) path lists)
    {more : List String} (hMore : ∀ part ∈ more, Segment part.toList) :
    ∀ part ∈ lists.flatten ++ more, Segment part.toList := by
  intro part hPart
  rcases List.mem_append.mp hPart with hPart | hPart
  · obtain ⟨parts, hParts, hPart⟩ := List.mem_flatten.mp hPart
    obtain ⟨_, -, hOwn⟩ := exists_mem_left_of_forall₂ hLists hParts
    exact hOwn.segment part hPart
  · exact hMore part hPart

/-- A way down through instances, each around the next, that begins inside of `outer`. -/
def Nested (instances : Arena .instances Instance) : Option InstanceId → List Instance → Prop
  | _, [] => True
  | outer, i :: rest =>
      instances.get? i.id = some i ∧ i.parent = outer ∧ Nested instances (some i.id) rest

theorem Nested.snoc {instances : Arena .instances Instance} {outer : Option InstanceId}
    {path : List Instance} {i j : Instance} (h : Nested instances outer (path ++ [j]))
    (hi : instances.get? i.id = some i) (hParent : i.parent = some j.id) :
    Nested instances outer (path ++ [j] ++ [i]) := by
  induction path generalizing outer with
  | nil => exact ⟨h.1, h.2.1, hi, hParent, trivial⟩
  | cons first rest ih => exact ⟨h.1, h.2.1, ih h.2.2⟩

theorem Mangle.forall₂_agrees {types : TypeStore} (hCanonical : types.Canonical)
    {params : List TemplateParam} {a b : List Argument} {texts : List String}
    (hFits : List.Forall₂ TemplateParam.Fits params a)
    (hFits' : List.Forall₂ TemplateParam.Fits params b)
    (ha : List.Forall₂ (fun a text => argument types a = .ok text) a texts)
    (hb : List.Forall₂ (fun a text => argument types a = .ok text) b texts)
    (hKinds : ∀ (index : Nat) (u v : Literal), a[index]? = some (.value u) →
      b[index]? = some (.value v) → u.rank = v.rank) : List.Forall₂ Argument.Agrees a b := by
  have hSorts := TemplateParam.Fits.forall₂_sameSort hFits hFits'
  clear hFits hFits'
  induction hSorts generalizing texts with
  | nil => exact .nil
  | cons hSort _ ih =>
    cases ha with
    | cons hHead hTail =>
      cases hb with
      | cons hHead' hTail' =>
        refine .cons ?_ (ih hTail hTail' fun index => hKinds (index + 1))
        cases hSort with
        | type =>
          rw [type_inj hCanonical hHead hHead']
          exact .type _
        | value =>
          cases hHead
          rw [literal_inj (hKinds 0 _ _ rfl rfl) (Except.ok.inj hHead').symm]
          exact .value (decide_eq_true rfl)

theorem Linked.parent_unique {instances : Arena .instances Instance} {id id' : InstanceId}
    {parent parent' : Option ModuleId} {found : Option InstanceId}
    (h : Linked instances id parent found) (h' : Linked instances id' parent' found) :
    parent = parent' := by
  cases h with
  | top =>
    cases h'
    rfl
  | inside hFound hSource =>
    cases h' with
    | inside hFound' hSource' =>
      cases hFound.symm.trans hFound'
      rw [← hSource, ← hSource']

/-- Modules with the same parent have different names. -/
def Program.UniqueNames (p : Program) : Prop :=
  ∀ ⦃a b m n text⦄, p.tree.readModule a = .ok m → p.tree.readModule b = .ok n →
    m.parent = n.parent → p.symbols.name m.name = .ok text → p.symbols.name n.name = .ok text →
    a = b

theorem Program.UniqueNames.of_entries {p : Program}
    (h : ∀ a ∈ p.tree.modules.entries, ∀ b ∈ p.tree.modules.entries, a.2.parent = b.2.parent →
      p.symbols.name a.2.name = p.symbols.name b.2.name → a.1 = b.1) : p.UniqueNames := by
  intro a b m n text hm hn hParent hText hText'
  exact h _ (Arena.mem_entries ((Arena.read_eq_ok_iff _ _ _).mp hm)) _
    (Arena.mem_entries ((Arena.read_eq_ok_iff _ _ _).mp hn)) hParent (hText.trans hText'.symm)

/-- Values for one template parameter are literals of one kind. -/
def RunState.UniformValues (s : RunState) : Prop :=
  ∀ ⦃a b i j⦄, s.instances.get? a = some i → s.instances.get? b = some j → i.source = j.source →
    ∀ ⦃index u v⦄, i.valueArgument? index = some u → j.valueArgument? index = some v →
      u.rank = v.rank

section Unique

variable {p : Program} {s : RunState} (hSound : Sound p s)
include hSound

/-- Every name spells a way down to its instance. -/
theorem Titled.exists_path (hTitled : Titled p s) {id : InstanceId} {i : Instance}
    (hi : s.instances.get? id = some i) : ∃ above lists,
      Nested s.instances none (above ++ [i]) ∧
        List.Forall₂ (Instance.Parts p s.types) (above ++ [i]) lists ∧
        "__" ++ i.name = chain lists.flatten := by
  -- Enclosing instances are older.
  obtain ⟨index⟩ := id
  induction index using Nat.strongRecOn generalizing i with
  | ind index ih =>
    obtain ⟨m, hFormed⟩ := hSound.formed hi
    obtain ⟨n, text, base, hDecl, hText, hBase, hName⟩ := hTitled.name hi
    obtain ⟨texts, hTexts, hName⟩ := instanceName_eq_ok_iff.mp hName
    have hParts : i.Parts p s.types (escape text :: texts) :=
      ⟨n, text, texts, hDecl, hText, hTexts, rfl⟩
    have hSelf : s.instances.get? i.id = some i := by rw [hFormed.id_eq, hi]
    have hLinked := hFormed.linked
    generalize hParent : i.parent = parent at hBase hLinked
    cases hBase with
    | top =>
      refine ⟨[], [escape text :: texts], ⟨hSelf, hParent, trivial⟩, .cons hParts .nil, ?_⟩
      rw [List.flatten_singleton, chain_cons, hName, String.append_assoc]
    | @inside outer j hOuter =>
      obtain ⟨_, _, -, -, -, hOlder⟩ := hLinked.exists_outer
      obtain ⟨above, lists, hNested, hLists, hOuterName⟩ := ih outer.index hOlder hOuter
      obtain ⟨_, hFormedOuter⟩ := hSound.formed hOuter
      refine ⟨above ++ [j], lists ++ [escape text :: texts], hNested.snoc hSelf ?_,
        List.rel_append hLists (.cons hParts .nil), ?_⟩
      · rw [hParent, hFormedOuter.id_eq]
      · rw [List.flatten_concat, chain_append, ← hOuterName, chain_cons, hName]
        simp only [String.append_assoc]

variable (hCanonical : s.types.Canonical) (hNames : p.UniqueNames) (hValues : s.UniformValues)
include hCanonical hNames hValues

theorem eq_of_parts {i j : Instance} {parts parts' rest rest' : List String}
    (hi : s.instances.get? i.id = some i) (hj : s.instances.get? j.id = some j)
    (hParent : i.parent = j.parent) (hParts : i.Parts p s.types parts)
    (hParts' : j.Parts p s.types parts') (h : parts ++ rest = parts' ++ rest') :
    i = j ∧ rest = rest' := by
  obtain ⟨m, text, texts, hDecl, hText, hTexts, rfl⟩ := hParts
  obtain ⟨n, text', texts', hDecl', hText', hTexts', rfl⟩ := hParts'
  obtain ⟨hEscape, hTail⟩ := List.cons.inj h
  obtain rfl := escape_inj hEscape
  obtain ⟨_, hFormed⟩ := hSound.formed hi
  obtain ⟨_, hFormed'⟩ := hSound.formed hj
  cases hDecl.symm.trans hFormed.decl
  cases hDecl'.symm.trans hFormed'.decl
  -- Same surroundings and same name, so it is the same module.
  have hLinked := hFormed.linked
  rw [hParent] at hLinked
  have hSource : i.source = j.source :=
    hNames hDecl hDecl' (hLinked.parent_unique hFormed'.linked) hText hText'
  rw [hSource] at hDecl
  cases hDecl.symm.trans hDecl'
  have hLength : texts.length = texts'.length := by
    rw [← hTexts.length_eq, ← hTexts'.length_eq, ← hFormed.fits.length_eq,
      ← hFormed'.fits.length_eq]
  obtain ⟨rfl, hRest⟩ := List.append_inj hTail hLength
  have hAgrees : List.Forall₂ Argument.Agrees i.arguments j.arguments := by
    refine forall₂_agrees hCanonical hFormed.fits hFormed'.fits hTexts hTexts' ?_
    intro index u v hu hv
    have hu : i.valueArgument? index = some u := by simp [Instance.valueArgument?, hu]
    have hv : j.valueArgument? index = some v := by simp [Instance.valueArgument?, hv]
    exact hValues hi hj hSource hu hv
  have hId := hSound.eq_of_agrees hi hj hSource hParent hAgrees
  rw [hId] at hi
  exact ⟨Option.some.inj (hi.symm.trans hj), hRest⟩

theorem Nested.unique {outer : Option InstanceId} {path path' : List Instance}
    {lists lists' : List (List String)} (h : Nested s.instances outer path)
    (h' : Nested s.instances outer path')
    (hLists : List.Forall₂ (Instance.Parts p s.types) path lists)
    (hLists' : List.Forall₂ (Instance.Parts p s.types) path' lists')
    (hFlat : lists.flatten = lists'.flatten) : path = path' := by
  have hNonempty {i : Instance} {parts rest : List String} (hParts : i.Parts p s.types parts) :
      parts ++ rest ≠ [] := by
    obtain ⟨_, _, _, -, -, -, rfl⟩ := hParts
    exact List.cons_ne_nil _ _
  induction hLists generalizing outer path' lists' with
  | nil =>
    cases hLists' with
    | nil => rfl
    | cons hParts' => exact absurd hFlat.symm (hNonempty hParts')
  | cons hParts _ ih =>
    cases hLists' with
    | nil => exact absurd hFlat (hNonempty hParts)
    | cons hParts' hTail' =>
      obtain ⟨hi, hParent, hRest⟩ := h
      obtain ⟨hj, hParent', hRest'⟩ := h'
      obtain ⟨rfl, hMore⟩ := eq_of_parts hSound hCanonical hNames hValues hi hj
        (hParent.trans hParent'.symm) hParts hParts' hFlat
      rw [ih hRest hRest' hTail' hMore]

/-- Names tell instances apart, also with the same number of further parts behind them. -/
theorem Titled.eq_of_name (hTitled : Titled p s) {a b : InstanceId} {i j : Instance}
    (hi : s.instances.get? a = some i) (hj : s.instances.get? b = some j) (more more' : List String)
    (hMore : ∀ part ∈ more, Segment part.toList) (hMore' : ∀ part ∈ more', Segment part.toList)
    (hLength : more.length = more'.length) (h : i.name ++ chain more = j.name ++ chain more') :
    a = b ∧ more = more' := by
  obtain ⟨above, lists, hNested, hLists, hName⟩ := hTitled.exists_path hSound hi
  obtain ⟨above', lists', hNested', hLists', hName'⟩ := hTitled.exists_path hSound hj
  have hChain : chain (lists.flatten ++ more) = chain (lists'.flatten ++ more') := by
    rw [chain_append, chain_append, ← hName, ← hName', String.append_assoc, String.append_assoc, h]
  obtain ⟨hFlat, rfl⟩ := List.append_inj' (chain_inj (Instance.Parts.segment_flatten hLists hMore)
    (Instance.Parts.segment_flatten hLists' hMore') hChain) hLength
  have hPath := hNested.unique hSound hCanonical hNames hValues hNested' hLists hLists' hFlat
  obtain ⟨-, hLast⟩ := List.append_inj' hPath rfl
  obtain ⟨_, hFormed⟩ := hSound.formed hi
  obtain ⟨_, hFormed'⟩ := hSound.formed hj
  refine ⟨?_, rfl⟩
  rw [← hFormed.id_eq, ← hFormed'.id_eq, (List.cons.inj hLast).1]

end Unique

theorem Mangle.closureName_eq (owner : String) (index : Nat) :
    closureName owner index = owner ++ chain ["closure" ++ toString index] := by
  have hSplit : "__closure" = "__" ++ "closure" := by decide
  rw [closureName, hSplit, chain_cons, show chain [] = "" from rfl, String.append_empty]
  simp only [String.append_assoc]

theorem Mangle.underscore_not_mem_closure (index : Nat) :
    '_' ∉ ("closure" ++ toString index).toList := by
  rw [String.toList_append, List.mem_append]
  exact not_or.mpr ⟨by decide, underscore_not_mem_toString index⟩

theorem Mangle.segment_closure (index : Nat) :
    ∀ part ∈ ["closure" ++ toString index], Segment part.toList := by
  intro part hPart
  rw [List.mem_singleton.mp hPart]
  exact .of_not_mem (underscore_not_mem_closure index)

/-- A state in which a run can be between two calls, with any calls for its types before it. -/
def RunState.Reachable (p : Program) (s : RunState) : Prop :=
  ∃ history calls, s = .after p calls (.start (initial.after history))

theorem RunState.Reachable.canonical {p : Program} {s : RunState} (h : s.Reachable p) :
    s.types.Canonical := by
  obtain ⟨history, calls, rfl⟩ := h
  have hSteps := (Sound.start p (initial.after history)).steps_after calls
  exact hSteps.grown.canonical ((grown_after history initial).canonical canonical_initial)

/-- Names tell instances apart, and symbols tell closures apart, if modules with the same parent
have different names and values for one parameter are of one kind. -/
theorem RunState.Reachable.names_distinct {p : Program} {s : RunState} (hReach : s.Reachable p)
    (hNames : p.UniqueNames) (hValues : s.UniformValues) :
    (∀ a b i j, s.instances.get? a = some i → s.instances.get? b = some j → a ≠ b →
      i.name ≠ j.name) ∧
    ∀ a b c d, s.closures.get? a = some c → s.closures.get? b = some d → a ≠ b →
      c.symbol ≠ d.symbol := by
  have hCanonical := hReach.canonical
  obtain ⟨hSound, hTitled⟩ : Sound p s ∧ Titled p s := by
    obtain ⟨history, calls, rfl⟩ := hReach
    exact ⟨Sound.after_start p _ calls, Titled.after_start p _ calls⟩
  constructor
  · intro a b i j hi hj hNe hName
    refine hNe (hTitled.eq_of_name hSound hCanonical hNames hValues hi hj [] [] ?_ ?_ rfl ?_).1
    · exact fun _ h => nomatch h
    · exact fun _ h => nomatch h
    · rw [hName]
  · intro a b c d hc hd hNe hSymbol
    obtain ⟨i, hi, hc, hListed⟩ := hTitled.symbol hc
    obtain ⟨j, hj, hd, hListed'⟩ := hTitled.symbol hd
    rw [hc, hd, closureName_eq, closureName_eq] at hSymbol
    obtain ⟨hOwner, hNumber⟩ := hTitled.eq_of_name hSound hCanonical hNames hValues hi hj _ _
      (segment_closure c.index) (segment_closure d.index) rfl hSymbol
    have hIndex := toString_inj ((String.append_right_inj _).mp (List.cons.inj hNumber).1)
    rw [hOwner] at hi
    cases hi.symm.trans hj
    rw [hIndex, hListed'] at hListed
    exact hNe (Option.some.inj hListed).symm

namespace Underscores

/-! A program in which names are empty or an underscore: a module with a number as its parameter, a
closure and a module inside it, and one that is named as that. -/

def symbols : SymbolTable :=
  ["", "_", "n"].foldl (fun table name => (table.intern name).2) .empty

def blank : ModuleDecl :=
  ⟨⟨0⟩, .origin, none, [⟨⟨2⟩, .origin, .value ⟨5⟩⟩], ⟨[], ⟨0⟩⟩,
    [⟨⟨2⟩, .origin, .value ⟨5⟩ ⟨0⟩⟩, ⟨⟨1⟩, .origin, .nested ⟨1⟩⟩]⟩

def inside : ModuleDecl := ⟨⟨1⟩, .origin, some ⟨0⟩, [], ⟨[], ⟨0⟩⟩, []⟩

def outside : ModuleDecl := ⟨⟨1⟩, .origin, none, [], ⟨[], ⟨0⟩⟩, []⟩

def tree : ModuleTree :=
  ⟨⟨#[blank, inside, outside]⟩,
    ⟨#[⟨.lambda [] ⟨1⟩, .origin, ⟨5⟩⟩, ⟨.literal (.signed .w32 7), .origin, ⟨5⟩⟩]⟩⟩

def program : Program := ⟨tree, symbols, .silent⟩

def calls : List Call :=
  [.instantiate ⟨0⟩ [.value (.signed .w32 1)], .instantiate ⟨0⟩ [.value (.signed .w32 (-1))],
    .instantiate ⟨2⟩ [], .drain]

def state : RunState := .after program calls (.start (initial.after []))

theorem uniqueNames : program.UniqueNames := .of_entries (by decide +kernel)

theorem uniformValues : state.UniformValues := by
  have hAll : ∀ e ∈ state.instances.entries, ∀ value ∈ e.2.arguments.filterMap Argument.value?,
      value.rank = 2 := by decide +kernel
  have hRank {id : InstanceId} {i : Instance} (hi : state.instances.get? id = some i) {index : Nat}
      {value : Literal} (hValue : i.valueArgument? index = some value) : value.rank = 2 := by
    refine hAll _ (Arena.mem_entries hi) value (List.mem_filterMap.mpr ⟨.value value, ?_, rfl⟩)
    unfold Instance.valueArgument? at hValue
    split at hValue
    · cases hValue
      exact List.mem_of_getElem? ‹_›
    · cases hValue
  intro a b i j hi hj _ index u v hu hv
  rw [hRank hi hu, hRank hj hv]

theorem names_distinct_blank : ∃ i j c d,
    state.instances.get? ⟨0⟩ = some i ∧ state.instances.get? ⟨1⟩ = some j ∧ i.name ≠ j.name ∧
    state.closures.get? ⟨0⟩ = some c ∧ state.closures.get? ⟨1⟩ = some d ∧ c.symbol ≠ d.symbol := by
  have hReach : state.Reachable program := ⟨[], calls, rfl⟩
  obtain ⟨hInstances, hClosures⟩ := hReach.names_distinct uniqueNames uniformValues
  have hSome : (state.instances.get? ⟨0⟩).isSome = true ∧ (state.instances.get? ⟨1⟩).isSome = true ∧
      (state.closures.get? ⟨0⟩).isSome = true ∧ (state.closures.get? ⟨1⟩).isSome = true := by
    decide +kernel
  obtain ⟨i, hi⟩ := Option.isSome_iff_exists.mp hSome.1
  obtain ⟨j, hj⟩ := Option.isSome_iff_exists.mp hSome.2.1
  obtain ⟨c, hc⟩ := Option.isSome_iff_exists.mp hSome.2.2.1
  obtain ⟨d, hd⟩ := Option.isSome_iff_exists.mp hSome.2.2.2
  exact ⟨i, j, c, d, hi, hj, hInstances _ _ i j hi hj (by decide), hc, hd,
    hClosures _ _ c d hc hd (by decide)⟩

end Underscores

end Specializer
