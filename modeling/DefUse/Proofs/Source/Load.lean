import DefUse.Source.Load
import DefUse.Proofs.Source.Procedure
import Mathlib.Data.List.Duplicate

/-!
# Which packages have a model

Functions are told apart by their full names, which hold the path of the package, the type of the
receiver and the name in the package.  A package may declare some names more than once: that of the
functions that run when the program starts, and the blank name.

**Method.** The procedures made from bodies pass the check, whatever the bodies are.  So the only
failure, once all symbols and types are known, is a name that is taken.

**Results.**
* `Sources.model_cases`: checked packages have a model, unless a full name is repeated.
* `Declared.full_injective`: full names tell the functions of packages apart by what they are
  declared as.
* `Sources.model_ok_iff`: the packages that have no model declare a repeatable name more than once.
-/

namespace DefUse

/-- An effect of a step leaves the edges of its node as they are. -/
theorem Node.keepsEdges_absorb
    (e : Source.Effect) :
    Node.KeepsEdges (Node.absorb · e) := by
  intro n
  cases e with
  | use v =>
      simp only [Node.absorb, Node.useOnce]
      split <;> exact ⟨rfl, rfl⟩
  | define v =>
      simp only [Node.absorb, Node.defineOnce]
      split <;> exact ⟨rfl, rfl⟩
  | call callee args => exact ⟨rfl, rfl⟩
  | mention t => exact ⟨rfl, rfl⟩

theorem Procedure.addEdges_name
    (edges : List (Int × Int)) :
    ∀ f : Procedure, (f.addEdges edges).name = f.name := by
  induction edges with
  | nil => exact fun _ => rfl
  | cons edge rest ih => exact fun f => (ih _).trans (addEdge_name f edge.1 edge.2)

namespace Source

/-- The functions of a package that have a body, in order. -/
def Package.subjects (p : Package) : List Subject :=
  p.declarations.filterMap Declaration.subject?

namespace Sources

variable {src : Sources} {build : FlowBuilder} {callee? : CalleeSearch}
  {ignored : Position → Bool} {packages : List Package}

section Procedures

/-- The node of a step has no edges. -/
theorem stepNode_edges
    (c : Scope) (ignored : Position → Bool) (handlers : List (Int × Int)) (s : Step) :
    (stepNode c ignored handlers s).succs = [] ∧ (stepNode c ignored handlers s).preds = [] := by
  have hfold : ∀ (effects : List Effect) (n : Node),
      (effects.foldl Node.absorb n).succs = n.succs ∧
        (effects.foldl Node.absorb n).preds = n.preds := by
    intro effects
    induction effects with
    | nil => exact fun _ => ⟨rfl, rfl⟩
    | cons e rest ih =>
        intro n
        have hedges := Node.keepsEdges_absorb e n
        exact ⟨(ih _).1.trans hedges.1, (ih _).2.trans hedges.2⟩
  exact hfold _ _

/-- The procedure of a function passes the check. -/
theorem procedure_flaw?
    (hbuild : build.IsSound)
    (modelled : List String) (s : Subject) :
    (src.procedure build callee? modelled ignored s).1.flaw? = none := by
  obtain ⟨hlinked, hentry, hexit⟩ := MarkedGraph.linked_procedure
    (hbuild (Expr.neverReturns callee?) s.body s.stop)
    (stepNode_edges (src.scope callee? modelled s) ignored (handlersOf s.body)) s.function.full
    (s.declaration.params.map (src.scope callee? modelled s).formal)
  dsimp only [Sources.procedure]
  exact hlinked.flaw?_eq_none_iff.mpr ⟨hentry, hexit⟩

/-- The procedure of a function has its full name. -/
theorem procedure_name
    (modelled : List String) (s : Subject) :
    (src.procedure build callee? modelled ignored s).1.name = s.function.full :=
  Procedure.addEdges_name _ _

end Procedures

section Cases

/-- The full names of the functions that have a body, in the order in which they are modelled. -/
def fullNames (packages : List Package) : List String :=
  (sorted packages).flatMap fun p => p.subjects.map fun s => s.function.full

/-- Procedures are added until a name is taken. -/
theorem foldlM_addProcedure_cases
    {α : Type} (made : List (Procedure × α)) (prog : Program)
    (hprog : prog.names.Nodup) :
    ((prog.names ++ made.map fun x => x.1.name).Nodup ∧
      ∃ prog', made.foldlM (fun (prog : Program) x =>
        (prog.addProcedure x.1.name x.1.params).mapError LoadError.duplicate) prog = .ok prog') ∨
    ∃ front name back, (prog.names ++ made.map fun x => x.1.name) = front ++ name :: back ∧
      front.Nodup ∧ name ∈ front ∧
      made.foldlM (fun (prog : Program) x =>
        (prog.addProcedure x.1.name x.1.params).mapError LoadError.duplicate) prog =
          .error (.duplicate ⟨name⟩) := by
  induction made generalizing prog with
  | nil => exact Or.inl ⟨by simpa using hprog, prog, rfl⟩
  | cons x rest ih =>
      by_cases htaken : x.1.name ∈ prog.names
      · refine Or.inr ⟨prog.names, x.1.name, rest.map fun x => x.1.name, rfl, hprog, htaken, ?_⟩
        rw [List.foldlM_cons, Program.addProcedure_of_mem htaken]
        rfl
      · have hadd := Program.addProcedure_of_not_mem htaken x.1.params
        generalize hnext : { prog with
          procs := prog.procs.push { name := x.1.name, params := x.1.params } } = next at hadd
        have hnames : next.names = prog.names ++ [x.1.name] := by
          simp [← hnext, Program.names]
        have hstep : (x :: rest).foldlM (fun (prog : Program) x =>
              (prog.addProcedure x.1.name x.1.params).mapError LoadError.duplicate) prog =
            rest.foldlM (fun (prog : Program) x =>
              (prog.addProcedure x.1.name x.1.params).mapError LoadError.duplicate) next := by
          rw [List.foldlM_cons, hadd]
          rfl
        have hnodup : next.names.Nodup := by
          rw [hnames, ← List.concat_eq_append]
          exact hprog.concat htaken
        have hall : prog.names ++ (x :: rest).map (fun x => x.1.name) =
            next.names ++ rest.map fun x => x.1.name := by
          simp [hnames]
        rw [hstep, hall]
        exact ih next hnodup

/-- Packages whose symbols and types are known have a program, which passed the check and has a
procedure for every function with a body; or a full name is repeated, and the first such is
reported. -/
theorem model_cases
    (src : Sources) (callee? : CalleeSearch) (ignored : Position → Bool)
    (hbuild : build.IsSound)
    (hchecked : ∀ p ∈ packages, p.checked = true) :
    ((fullNames packages).Nodup ∧
      ∃ prog events, src.model build callee? ignored packages = .ok (prog, events) ∧
      prog.Finalized ∧ prog.names = fullNames packages) ∨
    ∃ front name back, fullNames packages = front ++ name :: back ∧ front.Nodup ∧ name ∈ front ∧
      src.model build callee? ignored packages = .error (.duplicate ⟨name⟩) := by
  have hknown : unchecked? (sorted packages) = none := by
    rw [unchecked?, List.find?_eq_none]
    intro p hp
    simp [hchecked p ((mem_sortBy _).mp hp)]
  obtain ⟨made, hmade⟩ : ∃ made, made = ((sorted packages).flatMap fun p =>
      p.declarations.filterMap Declaration.subject?).map
        (src.procedure build callee? ((sorted packages).map Package.path) ignored) := ⟨_, rfl⟩
  have hnames : made.map (fun x => x.1.name) = fullNames packages := by
    rw [hmade, List.map_map, List.map_flatMap]
    exact List.flatMap_congr fun p _ => List.map_congr_left fun s _ => procedure_name _ s
  have hsound : ∀ f ∈ (made.map Prod.fst).toArray, f.flaw? = none := by
    intro f hf
    rw [List.mem_toArray, hmade, List.map_map] at hf
    obtain ⟨s, -, rfl⟩ := List.mem_map.mp hf
    exact procedure_flaw? hbuild _ s
  have hcases := foldlM_addProcedure_cases made {} List.nodup_nil
  simp only [Program.names, List.map_nil, List.nil_append, hnames] at hcases
  rcases hcases with ⟨hnodup, prog, hrun⟩ | ⟨front, name, back, hsplit, hfront, hname, hrun⟩
  · refine Or.inl ⟨hnodup, ?_⟩
    obtain ⟨base, hbase⟩ : ∃ base : Program, base = { prog with
        procs := (made.map Prod.fst).toArray
        subtypes := hierarchy (src.catalogue
          ((sorted packages).flatMap Package.named ++ made.flatMap Prod.snd)) } := ⟨_, rfl⟩
    have hflaw : base.flaw? = none := by
      rw [Program.flaw?, List.findSome?_eq_none_iff, hbase]
      exact fun f hf => hsound f (Array.mem_toList_iff.mp hf)
    have hfinalize : base.finalize = ({ base with callGraph := base.link }, none) := by
      rw [Program.finalize, hflaw]
    obtain ⟨events, hmade⟩ : ∃ events,
        src.model build callee? ignored packages =
          .ok ({ base with callGraph := base.link }, events) := by
      unfold model
      dsimp only
      rewrite [hknown, ← hmade, hrun]
      simp only [bind, Except.bind, ← hbase, hfinalize]
      exact ⟨_, rfl⟩
    refine ⟨{ base with callGraph := base.link }, events, hmade, ?_, ?_⟩
    · exact Program.finalized_of_sound hflaw rfl
    · rw [← hnames, hbase]
      simp [Program.names]
  · refine Or.inr ⟨front, name, back, hsplit, hfront, hname, ?_⟩
    unfold model
    dsimp only
    rewrite [hknown, ← hmade, hrun]
    rfl

end Cases

end Sources

section Declared

/-- What a function is declared as: its own name, and for a method the type of the receiver, which
may be behind a pointer. -/
structure Declared where
  /-- The receiver is behind a pointer, and the name of its type. -/
  receiver : Option (Bool × String) := none
  /-- The own name. -/
  name : String
  deriving DecidableEq, Repr

namespace Declared

/-- The full name in the package with a path. -/
def full (path : String) (d : Declared) : String :=
  match d.receiver with
  | none => path ++ "." ++ d.name
  | some (pointer, type) =>
    "(" ++ (if pointer then "*" else "") ++ path ++ "." ++ type ++ ")" ++ "." ++ d.name

/-- A package may declare the name more than once: that of a function that runs when the program
starts, or the blank name. -/
def repeatable (d : Declared) : Bool :=
  d.name = "_" || d = { name := "init" }

/-- The names hold no dot. -/
def Plain (d : Declared) : Prop :=
  '.' ∉ d.name.toList ∧ ∀ r ∈ d.receiver, '.' ∉ r.2.toList

instance (d : Declared) : Decidable d.Plain :=
  inferInstanceAs (Decidable (_ ∧ _))

/-- What stands before and after the last dot. -/
theorem eq_of_append_dot
    {front front' back back' : String}
    (hback : '.' ∉ back.toList)
    (hback' : '.' ∉ back'.toList)
    (h : front ++ "." ++ back = front' ++ "." ++ back') :
    front = front' ∧ back = back' := by
  have hlist : front.toList ++ '.' :: back.toList = front'.toList ++ '.' :: back'.toList := by
    have := congrArg String.toList h
    simpa [String.toList_append] using this
  rw [← String.toList_inj, ← String.toList_inj]
  rcases List.append_eq_append_iff.mp hlist with ⟨between, hfront, hrest⟩ | ⟨between, hfront, hrest⟩
  all_goals
    cases between with
    | nil =>
        obtain ⟨-, hback⟩ := List.cons.inj hrest
        simp_all
    | cons c between =>
        obtain ⟨-, hback⟩ := List.cons.inj hrest
        simp_all

/-- The receivers of methods tell the packages and types apart. -/
theorem receiver_injective
    {path path' type type' : String} {pointer pointer' : Bool}
    (hpath : '*' ∉ path.toList)
    (hpath' : '*' ∉ path'.toList)
    (htype : '.' ∉ type.toList)
    (htype' : '.' ∉ type'.toList)
    (h : "(" ++ (if pointer then "*" else "") ++ path ++ "." ++ type ++ ")" =
      "(" ++ (if pointer' then "*" else "") ++ path' ++ "." ++ type' ++ ")") :
    path = path' ∧ pointer = pointer' ∧ type = type' := by
  have hinner : (if pointer then "*" else "") ++ path ++ "." ++ type =
      (if pointer' then "*" else "") ++ path' ++ "." ++ type' := by
    rw [← String.toList_inj] at h ⊢
    refine List.append_cancel_right (?_ : _ ++ [')'] = _ ++ [')'])
    simpa [String.toList_append] using h
  obtain ⟨hfront, rfl⟩ := eq_of_append_dot htype htype' hinner
  rw [← String.toList_inj, String.toList_append, String.toList_append] at hfront
  rw [← String.toList_inj]
  cases pointer <;> cases pointer' <;> simp at hfront ⊢
  · exact hfront
  · exact hpath (by simp [hfront])
  · exact hpath' (by simp [← hfront])
  · exact hfront

/-- Full names tell the functions of packages apart. -/
theorem full_injective
    {path path' : String} {d d' : Declared}
    (hpath : ')' ∉ path.toList ∧ '*' ∉ path.toList)
    (hpath' : ')' ∉ path'.toList ∧ '*' ∉ path'.toList)
    (hd : d.Plain)
    (hd' : d'.Plain)
    (h : d.full path = d'.full path') :
    path = path' ∧ d = d' := by
  obtain ⟨receiver, name⟩ := d
  obtain ⟨receiver', name'⟩ := d'
  -- a path does not end like a receiver
  have hmixed : ∀ {path front : String}, ')' ∉ path.toList → path ≠ front ++ ")" := by
    rintro _ front hpath rfl
    exact hpath (by simp [String.toList_append])
  cases receiver with
  | none =>
      cases receiver' with
      | none =>
          obtain ⟨hfront, hname⟩ := eq_of_append_dot hd.1 hd'.1 h
          exact ⟨hfront, congrArg _ hname⟩
      | some method' =>
          obtain ⟨hfront, -⟩ := eq_of_append_dot hd.1 hd'.1 h
          exact absurd hfront (hmixed hpath.1)
  | some method =>
      cases receiver' with
      | none =>
          obtain ⟨hfront, -⟩ := eq_of_append_dot hd.1 hd'.1 h
          exact absurd hfront.symm (hmixed hpath'.1)
      | some method' =>
          obtain ⟨pointer, type⟩ := method
          obtain ⟨pointer', type'⟩ := method'
          obtain ⟨hfront, rfl⟩ := eq_of_append_dot hd.1 hd'.1 h
          obtain ⟨hpaths, rfl, rfl⟩ := receiver_injective hpath.2 hpath'.2 (hd.2 _ rfl)
            (hd'.2 _ rfl) hfront
          exact ⟨hpaths, rfl⟩

end Declared

/-- The functions with a body are declared as told, in packages with paths of their own, and only
repeatable names are declared more than once in a package. -/
structure Declares (packages : List Package) (declared : Subject → Declared) : Prop where
  paths : (packages.map Package.path).Nodup
  path_plain : ∀ p ∈ packages, ')' ∉ p.path.toList ∧ '*' ∉ p.path.toList
  plain : ∀ p ∈ packages, ∀ s ∈ p.subjects, (declared s).Plain
  full : ∀ p ∈ packages, ∀ s ∈ p.subjects, s.function.full = (declared s).full p.path
  unique : ∀ p ∈ packages, ((p.subjects.map declared).filter fun d => !d.repeatable).Nodup

instance (packages : List Package) (declared : Subject → Declared) :
    Decidable (Declares packages declared) :=
  decidable_of_iff
    ((packages.map Package.path).Nodup ∧
      (∀ p ∈ packages, ')' ∉ p.path.toList ∧ '*' ∉ p.path.toList) ∧
      (∀ p ∈ packages, ∀ s ∈ p.subjects, (declared s).Plain) ∧
      (∀ p ∈ packages, ∀ s ∈ p.subjects, s.function.full = (declared s).full p.path) ∧
      ∀ p ∈ packages, ((p.subjects.map declared).filter fun d => !d.repeatable).Nodup)
    ⟨fun ⟨paths, path_plain, plain, full, unique⟩ => ⟨paths, path_plain, plain, full, unique⟩,
      fun h => ⟨h.paths, h.path_plain, h.plain, h.full, h.unique⟩⟩

section Duplicates

variable {α β : Type}

/-- What two lists hold more than once. -/
theorem duplicate_append_iff
    {a : α} {xs ys : List α} :
    List.Duplicate a (xs ++ ys) ↔
      List.Duplicate a xs ∨ List.Duplicate a ys ∨ a ∈ xs ∧ a ∈ ys := by
  induction xs with
  | nil => simp [List.not_duplicate_nil]
  | cons x rest ih =>
      rw [List.cons_append, List.duplicate_cons_iff, List.duplicate_cons_iff, ih, List.mem_append,
        List.mem_cons]
      grind

/-- Where the lists have nothing in common, what is repeated is repeated in one of them. -/
theorem duplicate_flatMap_iff
    {f : α → List β} {xs : List α} {b : β}
    (hapart : xs.Pairwise fun x y => ∀ b ∈ f x, b ∉ f y) :
    List.Duplicate b (xs.flatMap f) ↔ ∃ x ∈ xs, List.Duplicate b (f x) := by
  induction xs with
  | nil => simp [List.not_duplicate_nil]
  | cons x rest ih =>
      obtain ⟨hx, hrest⟩ := List.pairwise_cons.mp hapart
      have hnone : ¬ (b ∈ f x ∧ b ∈ rest.flatMap f) := by
        rintro ⟨hb, hmem⟩
        obtain ⟨y, hy, hby⟩ := List.mem_flatMap.mp hmem
        exact hx y hy b hb hby
      rw [List.flatMap_cons, duplicate_append_iff, ih hrest]
      simp only [hnone, or_false, List.mem_cons, exists_eq_or_imp]

/-- Where different members have different images, an image is repeated exactly if a member is. -/
theorem duplicate_map_iff
    {f : α → β} {xs : List α} {b : β}
    (hinj : ∀ x ∈ xs, ∀ y ∈ xs, f x = f y → x = y) :
    List.Duplicate b (xs.map f) ↔ ∃ x, List.Duplicate x xs ∧ b = f x := by
  induction xs with
  | nil => simp [List.not_duplicate_nil]
  | cons x rest ih =>
      rw [List.map_cons, List.duplicate_cons_iff, ih fun y hy z hz =>
        hinj y (List.mem_cons_of_mem x hy) z (List.mem_cons_of_mem x hz)]
      constructor
      · rintro (⟨rfl, hmem⟩ | ⟨y, hy, rfl⟩)
        · obtain ⟨y, hy, heq⟩ := List.mem_map.mp hmem
          obtain rfl := hinj y (List.mem_cons_of_mem x hy) x List.mem_cons_self heq
          exact ⟨y, List.duplicate_cons_self_iff.mpr hy, rfl⟩
        · exact ⟨y, hy.duplicate_cons x, rfl⟩
      · rintro ⟨y, hy, rfl⟩
        rcases List.duplicate_cons_iff.mp hy with ⟨rfl, hmem⟩ | hy
        · exact Or.inl ⟨rfl, List.mem_map_of_mem hmem⟩
        · exact Or.inr ⟨y, hy, rfl⟩

end Duplicates

namespace Declares

variable {packages : List Package} {declared : Subject → Declared} {p : Package} {d : Declared}
  {name : String}

theorem repeatable_of_duplicate
    (h : Declares packages declared)
    (hp : p ∈ packages)
    (hd : List.Duplicate d (p.subjects.map declared)) :
    d.repeatable = true := by
  by_contra hunique
  rw [List.duplicate_iff_sublist] at hd
  have hfilter := hd.filter fun d => !d.repeatable
  simp only [hunique, List.filter_cons, List.filter_nil, Bool.not_false, if_true] at hfilter
  exact (List.duplicate_iff_sublist.mpr hfilter).not_nodup (h.unique p hp)

/-- The full names of a package are those of what it declares. -/
theorem map_full
    (h : Declares packages declared)
    (hp : p ∈ packages) :
    (p.subjects.map fun s => s.function.full) =
      (p.subjects.map declared).map (Declared.full p.path) := by
  rw [List.map_map]
  exact List.map_congr_left fun s hs => h.full p hp s hs

theorem plain_of_mem
    (h : Declares packages declared)
    (hp : p ∈ packages)
    (hd : d ∈ p.subjects.map declared) :
    d.Plain := by
  obtain ⟨s, hs, rfl⟩ := List.mem_map.mp hd
  exact h.plain p hp s hs

/-- A full name is repeated exactly if a package declares a function more than once. -/
theorem duplicate_fullNames_iff
    (h : Declares packages declared) :
    List.Duplicate name (Sources.fullNames packages) ↔
      ∃ p ∈ packages, ∃ d, List.Duplicate d (p.subjects.map declared) ∧ name = d.full p.path := by
  have hmem : ∀ {p}, p ∈ Sources.sorted packages ↔ p ∈ packages := mem_sortBy _
  have hpaths : ((Sources.sorted packages).map Package.path).Nodup :=
    ((sortBy_perm packages).map Package.path).nodup_iff.mpr h.paths
  have hapart : (Sources.sorted packages).Pairwise fun p q =>
      ∀ name ∈ p.subjects.map (fun s => s.function.full),
        name ∉ q.subjects.map fun s => s.function.full := by
    refine (List.pairwise_map.mp hpaths).imp_of_mem fun {p q} hp hq hne name hname hname' => hne ?_
    rw [hmem] at hp hq
    rw [h.map_full hp] at hname
    rw [h.map_full hq] at hname'
    obtain ⟨d, hd, rfl⟩ := List.mem_map.mp hname
    obtain ⟨d', hd', heq⟩ := List.mem_map.mp hname'
    exact (Declared.full_injective (h.path_plain p hp) (h.path_plain q hq) (h.plain_of_mem hp hd)
      (h.plain_of_mem hq hd') heq.symm).1
  rw [Sources.fullNames, duplicate_flatMap_iff hapart]
  simp only [hmem]
  refine exists_congr fun p => and_congr_right fun hp => ?_
  rw [h.map_full hp]
  refine duplicate_map_iff fun d hd d' hd' heq => ?_
  exact (Declared.full_injective (h.path_plain p hp) (h.path_plain p hp) (h.plain_of_mem hp hd)
    (h.plain_of_mem hp hd') heq).2

end Declares

namespace Sources

variable {src : Sources} {build : FlowBuilder} {callee? : CalleeSearch}
  {ignored : Position → Bool} {packages : List Package} {declared : Subject → Declared}

/-- Whatever way to make blocks is used, as long as it makes the first block live and leads from
live blocks to live ones: checked packages have a model exactly if none of them declares a
repeatable name more than once.  The model has passed the check and has a procedure for every
function with a body; the failure reports a name that is declared more than once. -/
theorem model_ok_iff
    (hbuild : build.IsSound)
    (hchecked : ∀ p ∈ packages, p.checked = true)
    (hdeclares : Declares packages declared) :
    ((∃ prog events, src.model build callee? ignored packages = .ok (prog, events)) ↔
      ∀ p ∈ packages, ∀ d : Declared, d.repeatable = true →
        (p.subjects.map declared).count d ≤ 1) ∧
    (∀ prog events, src.model build callee? ignored packages = .ok (prog, events) →
      prog.Finalized ∧ prog.names = fullNames packages) ∧
    ∀ e, src.model build callee? ignored packages = .error e →
      ∃ p ∈ packages, ∃ d : Declared, d.repeatable = true ∧
        2 ≤ (p.subjects.map declared).count d ∧ e = .duplicate ⟨d.full p.path⟩ := by
  have hcount : ∀ p ∈ packages, ∀ d : Declared,
      List.Duplicate d (p.subjects.map declared) ↔ 2 ≤ (p.subjects.map declared).count d :=
    fun p _ d => List.duplicate_iff_two_le_count
  rcases model_cases src callee? ignored hbuild hchecked with
    ⟨hnodup, prog, events, hmodel, hsound⟩ | ⟨front, name, back, hsplit, -, hname, hmodel⟩
  · refine ⟨⟨fun _ p hp d _ => ?_, fun _ => ⟨prog, events, hmodel⟩⟩, ?_, ?_⟩
    · by_contra htwice
      have hd : List.Duplicate d (p.subjects.map declared) := (hcount p hp d).mpr (by omega)
      exact (hdeclares.duplicate_fullNames_iff.mpr ⟨p, hp, d, hd, rfl⟩).not_nodup hnodup
    · intro prog' events' hmodel'
      obtain ⟨rfl, -⟩ := Prod.mk.inj (Except.ok.inj (hmodel.symm.trans hmodel'))
      exact hsound
    · intro e he
      exact absurd (hmodel.symm.trans he) (by simp)
  · have hduplicate : List.Duplicate name (fullNames packages) := by
      rw [hsplit, duplicate_append_iff]
      exact Or.inr (Or.inr ⟨hname, List.mem_cons_self⟩)
    obtain ⟨p, hp, d, hd, rfl⟩ := hdeclares.duplicate_fullNames_iff.mp hduplicate
    have hrepeatable := hdeclares.repeatable_of_duplicate hp hd
    have htwice := (hcount p hp d).mp hd
    refine ⟨⟨?_, fun honce => ?_⟩, ?_, ?_⟩
    · rintro ⟨prog, events, hok⟩
      exact absurd (hmodel.symm.trans hok) (by simp)
    · have := honce p hp d hrepeatable
      omega
    · intro prog events hok
      exact absurd (hmodel.symm.trans hok) (by simp)
    · intro e he
      obtain rfl := Except.error.inj (hmodel.symm.trans he)
      exact ⟨p, hp, d, hrepeatable, htwice, rfl⟩

section Inputs

/-- The declaration of a function without statements. -/
def emptyFunction (full path : String) (receiver : Receiver) (start : Int) : Declaration where
  function := some { full, generic := full, package := some path, receiver }
  params := []
  start := start
  stop := start + 14
  body := some ([], start + 14)

/-- A package with a function that runs when the program starts, and another one; and a package with
a function that runs when the program starts and a method. -/
def oneInitEach : List Package :=
  [{ path := "q"
     declarations := [emptyFunction "q.init" "q" .none 1, emptyFunction "q.f" "q" .none 17] },
    { path := "p"
      declarations := [emptyFunction "(*p.T).f" "p" .pointer 1,
        emptyFunction "p.init" "p" .none 20] }]

theorem model_ok_iff_oneInitEach :
    FlowBuilder.IsSound FlowGraph.build ∧
      ∃ declared, Declares oneInitEach declared ∧ (∀ p ∈ oneInitEach, p.checked = true) ∧
      ∃ prog events, ({} : Sources).model FlowGraph.build Expr.staticCallee? (fun _ => false)
        oneInitEach = .ok (prog, events) := by
  let declared : Subject → Declared := fun s =>
    if s.function.receiver = .pointer then { receiver := some (true, "T"), name := "f" }
    else if s.function.full = "q.f" then { name := "f" }
    else { name := "init" }
  have hdeclares : Declares oneInitEach declared := by decide +kernel
  have hchecked : ∀ p ∈ oneInitEach, p.checked = true := by decide
  have honce : ∀ p ∈ oneInitEach, (p.subjects.map declared).Nodup := by decide +kernel
  exact ⟨isSound_build, declared, hdeclares, hchecked,
    (model_ok_iff isSound_build hchecked hdeclares).1.mpr
      fun p hp d _ => List.nodup_iff_count_le_one.mp (honce p hp) d⟩

/-- A package with two functions that run when the program starts. -/
def twoInits : Package where
  path := "p"
  declarations := [emptyFunction "p.init" "p" .none 12, emptyFunction "p.init" "p" .none 28]

theorem model_not_ok :
    ¬ ∀ (src : Sources) (build : FlowBuilder) (callee? : CalleeSearch)
        (ignored : Position → Bool) (packages : List Package) (declared : Subject → Declared),
      build.IsSound → (∀ p ∈ packages, p.checked = true) → Declares packages declared →
        ∃ prog events, src.model build callee? ignored packages = .ok (prog, events) := by
  intro hall
  have hchecked : ∀ p ∈ [twoInits], p.checked = true := by decide
  have hdeclares : Declares [twoInits] fun _ => { name := "init" } := by decide +kernel
  obtain ⟨prog, events, hok⟩ := hall {} FlowGraph.build Expr.staticCallee? (fun _ => false)
    [twoInits] _ isSound_build hchecked hdeclares
  rcases model_cases {} Expr.staticCallee? (fun _ => false) isSound_build hchecked with
    ⟨hnodup, -⟩ | hfail
  · exact absurd hnodup (by decide +kernel)
  · obtain ⟨-, name, -, -, -, -, hmodel⟩ := hfail
    exact absurd (hmodel.symm.trans hok) (by simp)

end Inputs

end Sources

end Declared

end Source
end DefUse
