import DefUse.Proofs.Document.Json
import DefUse.Proofs.Document.MessagePack
import DefUse.Proofs.Document.Reader
import DefUse.Report.Format

/-!
# Reports read back as they were written

**Method.** Two steps are turned round, one after the other.  The document of a report is read back
from text and from octets alike, as any document is.  From the document each part of a report is
read field by field, in the order in which the fields are written; a field that was left out leaves
the place of a new report as it is, so that an empty list comes back as a missing one.

**Results.**
* `ofDoc?_toDoc`: a report comes back from its document, in every dialect that tells its keys apart.
* `readAs_writeAs`: a report comes back from what was written for it in either format.
-/

namespace DefUse

open Doc (Dialect Refill FieldsFit Fits IsShort Is64Bit sizeLimit Puts)

section Lists

variable {depth : Nat} {key : String} {xs : Option (List String)} {d : Dialect}

/-- The list, unless it is empty. -/
def nonempty {α : Type} (xs : Option (List α)) : Option (List α) :=
  xs.filter fun items => !items.isEmpty

/-- A list of texts that can be written down, if there is a list. -/
def AreShort (xs : Option (List String)) : Prop :=
  ∀ items ∈ xs, items.length < sizeLimit ∧ ∀ s ∈ items, IsShort s

instance (xs : Option (List String)) : Decidable (AreShort xs) :=
  inferInstanceAs (Decidable (∀ items ∈ xs, _))

/-- A list is written down if it has items. -/
theorem textsField?_eq
    (key : String) (xs : Option (List String)) :
    Doc.textsField? key xs =
      match nonempty xs with
      | none => []
      | some items => [(key, .list (items.map .text))] := by
  match xs with
  | none => rfl
  | some [] => rfl
  | some (x :: xs) => rfl

/-- A list of short texts fits if it is not too long. -/
theorem fits_texts
    {items : List String}
    (h : items.length < sizeLimit ∧ ∀ s ∈ items, IsShort s) :
    (Doc.list (items.map .text)).Fits (depth + 1) := by
  refine .list (by rw [List.length_map]; exact h.1) ?_
  intro doc hdoc
  obtain ⟨s, hs, rfl⟩ := List.mem_map.mp hdoc
  exact .text (h.2 s hs)

theorem fieldsFit_textsField?
    (h : AreShort xs)
    (hkey : IsShort key := by decide) :
    FieldsFit (depth + 1) 1 (Doc.textsField? key xs) := by
  rw [textsField?_eq]
  split
  · exact .nil
  · rename_i items hitems
    exact .single (fits_texts (h items (Option.mem_filter_iff.mp hitems).1)) hkey

/-- What reading a list that was written down leaves in an empty place. -/
def refilled (xs : Option (List String)) : Option (Refill String) :=
  (nonempty xs).map fun items => { items }

/-- A list of texts is read back into an empty field. -/
theorem texts?_eq
    (d : Dialect) (items : List String) :
    Doc.Reader.texts? d none (.list (items.map .text)) = some (some { items }) := by
  have hread := @Doc.refill_map _ _ d (Doc.Reader.text d) "" Doc.text id items fun _ _ => rfl
  rw [List.map_id] at hread
  exact congrArg (Option.map some) hread

/-- What a list was refilled with are its items. -/
theorem map_items_refilled :
    (refilled xs).map Refill.items = nonempty xs := by
  rw [refilled, Option.map_map]
  exact Option.map_id'

/-- A list of texts is put into its place, or leaves it empty. -/
theorem puts_textsField?
    {σ : Type} {fields : List (Doc.Reader.Field σ)} {s : σ}
    {get : σ → Option (Refill String)} {set : σ → Option (Refill String) → σ}
    (hd : d.Tells (fields.map Prod.fst))
    (i : Nat)
    (hi : fields[i]? = some (key, fun s x => return set s (← Doc.Reader.texts? d (get s) x)))
    (hget : get s = none)
    (hset : set s none = s)
    (xs : Option (List String)) :
    Puts d fields (Doc.textsField? key xs) s (set s (refilled xs)) := by
  rw [textsField?_eq, refilled]
  split
  · rename_i hnone
    rw [hnone, Option.map_none, hset]
    exact .nil
  · rename_i items hitems
    refine .single hd i hi ?_
    rw [hget, texts?_eq, hitems]
    rfl

end Lists

namespace Stats

variable {s : Stats} {d : Dialect}

/-- The numbers have 64 bits. -/
def Bounded (s : Stats) : Prop :=
  ∀ n ∈ [s.procedures, s.associations, s.definite, s.conditional, s.nonInferrable, s.heap,
    s.interprocedural, s.pathExpressions, s.pathWarnings], Is64Bit n

instance (s : Stats) : Decidable s.Bounded := inferInstanceAs (Decidable (∀ n ∈ _, _))

theorem fits_toDoc
    (h : s.Bounded)
    (depth : Nat) :
    s.toDoc.Fits (depth + 1) := by
  simp only [Bounded, List.forall_mem_cons] at h
  obtain ⟨h0, h1, h2, h3, h4, h5, h6, h7, h8, -⟩ := h
  refine .record (show 10 < sizeLimit by decide) ?_ ?_
  · simp only [List.forall_mem_cons]
    decide
  · simp only [List.forall_mem_cons]
    exact ⟨.int h0, .int h1, .int h2, .int h3, .int h4, .int h5, .int h6, .int h7, .int h8,
      .flag _, fun _ h => absurd h List.not_mem_nil⟩

/-- What was written is read back, in any dialect that tells the fields apart. -/
theorem reader_toDoc
    (hd : d.Tells ((fields d).map Prod.fst))
    (s : Stats) :
    reader d {} s.toDoc = some s := by
  refine Puts.record ?_
  refine (Puts.single hd 0 rfl rfl).append ?_
  refine (Puts.single hd 1 rfl rfl).append ?_
  refine (Puts.single hd 2 rfl rfl).append ?_
  refine (Puts.single hd 3 rfl rfl).append ?_
  refine (Puts.single hd 4 rfl rfl).append ?_
  refine (Puts.single hd 5 rfl rfl).append ?_
  refine (Puts.single hd 6 rfl rfl).append ?_
  refine (Puts.single hd 7 rfl rfl).append ?_
  refine (Puts.single hd 8 rfl rfl).append ?_
  exact Puts.single hd 9 rfl rfl

end Stats

namespace ReportPaths

variable {p : ReportPaths} {d : Dialect}

/-- The texts and lists can be written down. -/
structure Bounded (p : ReportPaths) : Prop where
  expr : IsShort p.expr
  incoming : AreShort p.incoming
  departing : AreShort p.departing

instance (p : ReportPaths) : Decidable p.Bounded :=
  decidable_of_iff (IsShort p.expr ∧ AreShort p.incoming ∧ AreShort p.departing)
    ⟨fun ⟨h, h', h''⟩ => ⟨h, h', h''⟩, fun ⟨h, h', h''⟩ => ⟨h, h', h''⟩⟩

/-- The path expression without its empty lists. -/
def pruned (p : ReportPaths) : ReportPaths :=
  { p with incoming := nonempty p.incoming, departing := nonempty p.departing }

/-- What reading a path expression gives before it is finished. -/
def draft (p : ReportPaths) : Draft where
  expr := p.expr
  incoming := refilled p.incoming
  departing := refilled p.departing

theorem finish_draft
    (p : ReportPaths) :
    p.draft.finish = p.pruned := by
  unfold draft Draft.finish pruned
  simp only [map_items_refilled]

theorem fits_toDoc
    (h : p.Bounded)
    (depth : Nat) :
    p.toDoc.Fits (depth + 2) := by
  refine FieldsFit.record ?_ (show 3 < sizeLimit by decide)
  rw [List.append_assoc]
  refine .append (.single (.text h.expr)) ?_
  refine .append (fieldsFit_textsField? h.incoming) ?_
  exact fieldsFit_textsField? h.departing

theorem reader_toDoc
    (hd : d.Tells ((fields d).map Prod.fst))
    (p : ReportPaths) :
    reader d {} p.toDoc = some p.draft := by
  refine Puts.record ?_
  rw [List.append_assoc]
  refine (Puts.single hd 0 rfl rfl).append ?_
  refine (puts_textsField? hd 1 rfl rfl rfl _).append ?_
  exact puts_textsField? hd 2 rfl rfl rfl _

end ReportPaths

namespace ReportEntry

variable {e : ReportEntry} {d : Dialect} {key : String} {s : Draft} {depth : Nat}

/-- The texts and lists can be written down. -/
structure Bounded (e : ReportEntry) : Prop where
  texts : ∀ s ∈ [e.var, e.kind, e.definition, e.use, e.branch, e.classification], IsShort s
  lists : ∀ xs ∈ [e.localUses, e.hardKills, e.possibleKills], AreShort xs
  paths : ∀ p ∈ e.paths, p.Bounded

instance (e : ReportEntry) : Decidable e.Bounded :=
  decidable_of_iff
    ((∀ s ∈ [e.var, e.kind, e.definition, e.use, e.branch, e.classification], IsShort s) ∧
      (∀ xs ∈ [e.localUses, e.hardKills, e.possibleKills], AreShort xs) ∧
      ∀ p ∈ e.paths, p.Bounded)
    ⟨fun ⟨h, h', h''⟩ => ⟨h, h', h''⟩, fun ⟨h, h', h''⟩ => ⟨h, h', h''⟩⟩

/-- The association without its empty lists. -/
def pruned (e : ReportEntry) : ReportEntry :=
  { e with
    localUses := nonempty e.localUses
    hardKills := nonempty e.hardKills
    possibleKills := nonempty e.possibleKills
    paths := e.paths.map ReportPaths.pruned }

/-- What reading an association gives before it is finished. -/
def draft (e : ReportEntry) : Draft where
  entry := { e with localUses := none, hardKills := none, possibleKills := none, paths := none }
  localUses := refilled e.localUses
  hardKills := refilled e.hardKills
  possibleKills := refilled e.possibleKills
  paths := e.paths.map ReportPaths.draft

theorem finish_draft
    (e : ReportEntry) :
    e.draft.finish = e.pruned := by
  have hpaths : ReportPaths.Draft.finish ∘ ReportPaths.draft = ReportPaths.pruned :=
    funext ReportPaths.finish_draft
  unfold draft Draft.finish pruned
  simp only [map_items_refilled, Option.map_map, hpaths]

section Groups

theorem fieldsFit_textField?
    {x : String}
    (hx : IsShort x)
    (hkey : IsShort key := by decide) :
    FieldsFit depth 1 (Doc.textField? key x) := by
  unfold Doc.textField?
  split
  · exact .nil
  · exact .single (.text hx) hkey

theorem fieldsFit_flagField?
    (b : Bool)
    (hkey : IsShort key := by decide) :
    FieldsFit depth 1 (Doc.flagField? key b) := by
  unfold Doc.flagField?
  split
  · exact .single (.flag b) hkey
  · exact .nil

variable {fields : List (Doc.Reader.Field Draft)}

/-- A text that was written is put into its field, and one that was left out leaves it empty. -/
theorem puts_textField?
    {get : ReportEntry → String} {set : ReportEntry → String → ReportEntry}
    (hd : d.Tells (fields.map Prod.fst))
    (i : Nat)
    (hi : fields[i]? = some (key, textOf d get set))
    (hset : set s.entry "" = s.entry)
    (x : String) :
    Puts d fields (Doc.textField? key x) s { s with entry := set s.entry x } := by
  unfold Doc.textField?
  split
  · rename_i hx
    rw [String.isEmpty_iff.mp hx, hset]
    exact .nil
  · exact .single hd i hi rfl

/-- A mark that was written is put into its field, and one that was left out leaves it unset. -/
theorem puts_flagField?
    {get : ReportEntry → Bool} {set : ReportEntry → Bool → ReportEntry}
    (hd : d.Tells (fields.map Prod.fst))
    (i : Nat)
    (hi : fields[i]? = some (key, flagOf d get set))
    (hset : set s.entry false = s.entry)
    (b : Bool) :
    Puts d fields (Doc.flagField? key b) s { s with entry := set s.entry b } := by
  cases b with
  | false =>
      rw [hset]
      exact .nil
  | true => exact .single hd i hi rfl

end Groups

/-- The dialect tells the keys of associations and of what is inside them apart. -/
structure Told (d : Dialect) : Prop where
  entry : d.Tells ((fields d).map Prod.fst)
  paths : d.Tells ((ReportPaths.fields d).map Prod.fst)

theorem fits_toDoc
    (h : e.Bounded)
    (depth : Nat) :
    e.toDoc.Fits (depth + 3) := by
  obtain ⟨htexts, hlists, hpaths⟩ := h
  simp only [List.forall_mem_cons] at htexts hlists
  obtain ⟨hvar, hkind, hdef, huse, hbranch, hclass, -⟩ := htexts
  obtain ⟨hlocal, hhard, hpossible, -⟩ := hlists
  refine FieldsFit.record ?_ (show 14 < sizeLimit by decide)
  simp only [List.append_assoc]
  refine .append (.single (.text hvar)) ?_
  refine .append (.single (.text hkind)) ?_
  refine .append (.single (.text hdef)) ?_
  refine .append (.single (.text huse)) ?_
  refine .append (fieldsFit_flagField? _) ?_
  refine .append (fieldsFit_textField? hbranch) ?_
  refine .append (.single (.text hclass)) ?_
  refine .append (fieldsFit_flagField? _) ?_
  refine .append (fieldsFit_flagField? _) ?_
  refine .append (fieldsFit_textsField? hlocal) ?_
  refine .append (fieldsFit_textsField? hhard) ?_
  refine .append (fieldsFit_textsField? hpossible) ?_
  refine .append (fieldsFit_flagField? _) ?_
  split
  · exact .nil
  · rename_i p hp
    exact .single (p.fits_toDoc (hpaths p hp) depth)

/-- Paths that were written are put into their field, and those that were left out leave it empty.
-/
theorem puts_paths
    (hd : Told d)
    (hs : s.paths = none)
    (paths : Option ReportPaths) :
    Puts d (fields d)
      (match paths with
      | none => []
      | some p => [("paths", p.toDoc)])
      s { s with paths := paths.map ReportPaths.draft } := by
  cases paths with
  | none =>
      rw [Option.map_none, ← hs]
      exact .nil
  | some p =>
      refine .single hd.entry 13 rfl ?_
      have hread : Doc.Reader.optional (ReportPaths.reader d) {} none p.toDoc =
          some (some p.draft) :=
        congrArg (Option.map some) (ReportPaths.reader_toDoc hd.paths p)
      rw [hs, hread]
      rfl

theorem reader_toDoc
    (hd : Told d)
    (e : ReportEntry) :
    reader d {} e.toDoc = some e.draft := by
  refine Puts.record ?_
  simp only [List.append_assoc]
  refine (Puts.single hd.entry 0 rfl rfl).append ?_
  refine (Puts.single hd.entry 1 rfl rfl).append ?_
  refine (Puts.single hd.entry 2 rfl rfl).append ?_
  refine (Puts.single hd.entry 3 rfl rfl).append ?_
  refine (puts_flagField? hd.entry 4 rfl rfl _).append ?_
  refine (puts_textField? hd.entry 5 rfl rfl _).append ?_
  refine (Puts.single hd.entry 6 rfl rfl).append ?_
  refine (puts_flagField? hd.entry 7 rfl rfl _).append ?_
  refine (puts_flagField? hd.entry 8 rfl rfl _).append ?_
  refine (puts_textsField? hd.entry 9 rfl rfl rfl _).append ?_
  refine (puts_textsField? hd.entry 10 rfl rfl rfl _).append ?_
  refine (puts_textsField? hd.entry 11 rfl rfl rfl _).append ?_
  refine (puts_flagField? hd.entry 12 rfl rfl _).append ?_
  exact puts_paths hd rfl e.paths

end ReportEntry

namespace Report

variable {r : Report} {d : Dialect}

/-- The numbers have 64 bits, and the texts and lists can be written down. -/
structure Bounded (r : Report) : Prop where
  stats : r.stats.Bounded
  length : ∀ es ∈ r.entries, es.length < sizeLimit
  entries : ∀ es ∈ r.entries, ∀ e ∈ es, e.Bounded

instance (r : Report) : Decidable r.Bounded :=
  decidable_of_iff
    (r.stats.Bounded ∧ (∀ es ∈ r.entries, es.length < sizeLimit) ∧
      ∀ es ∈ r.entries, ∀ e ∈ es, e.Bounded)
    ⟨fun ⟨h, h', h''⟩ => ⟨h, h', h''⟩, fun ⟨h, h', h''⟩ => ⟨h, h', h''⟩⟩

/-- The report without the empty lists of its associations. -/
def pruned (r : Report) : Report :=
  { r with entries := r.entries.map fun es => es.map ReportEntry.pruned }

theorem fits_toDoc
    (h : r.Bounded)
    (depth : Nat) :
    r.toDoc.Fits (depth + 5) := by
  refine FieldsFit.record ?_ (show 2 < sizeLimit by decide)
  refine .append (.single (Stats.fits_toDoc h.stats (depth + 3))) ?_
  refine .single ?_
  split
  · exact .null
  · rename_i es hes
    refine .list (by rw [List.length_map]; exact h.length es hes) ?_
    intro doc hdoc
    obtain ⟨e, he, rfl⟩ := List.mem_map.mp hdoc
    exact ReportEntry.fits_toDoc (h.entries es hes e he) depth

/-- The dialect tells the keys of each part of a report apart. -/
structure Told (d : Dialect) : Prop where
  report : d.Tells ((fields d).map Prod.fst)
  stats : d.Tells ((Stats.fields d).map Prod.fst)
  entry : ReportEntry.Told d

theorem told_json : Told Doc.Json.dialect :=
  ⟨by decide, by decide, ⟨by decide, by decide⟩⟩

theorem told_messagePack : Told Doc.MessagePack.dialect :=
  ⟨by decide, by decide, ⟨by decide, by decide⟩⟩

/-- What reading a report gives before it is finished. -/
def draft (r : Report) : Draft where
  stats := r.stats
  entries := r.entries.map fun es => { items := es.map ReportEntry.draft }

theorem finish_draft
    (r : Report) :
    r.draft.finish = r.pruned := by
  have hentries : ReportEntry.Draft.finish ∘ ReportEntry.draft = ReportEntry.pruned :=
    funext ReportEntry.finish_draft
  obtain ⟨stats, entries⟩ := r
  cases entries with
  | none => rfl
  | some es => simp only [draft, Draft.finish, pruned, Option.map_some, List.map_map, hentries]

/-- The entries of a report are read back in their order. -/
theorem list?_map
    (hd : ReportEntry.Told d)
    (es : List ReportEntry) :
    Doc.Reader.list? d (ReportEntry.reader d) {} none (.list (es.map ReportEntry.toDoc)) =
      some (some { items := es.map ReportEntry.draft }) :=
  congrArg (Option.map some) (Doc.refill_map fun e _ => ReportEntry.reader_toDoc hd e)

/-- A report comes back from its document. -/
theorem ofDoc?_toDoc
    (hd : Told d)
    (r : Report) :
    ofDoc? d r.toDoc = some r.pruned := by
  have hstats : Puts d (fields d) [("stats", r.stats.toDoc)] {} { stats := r.stats } := by
    refine Puts.single hd.report 0 rfl ?_
    rw [Stats.reader_toDoc hd.stats]
    rfl
  have hread : Doc.Reader.record d (fields d) {} {} r.toDoc = some r.draft := by
    refine Puts.record (hstats.append (Puts.single hd.report 1 rfl ?_))
    obtain ⟨stats, entries⟩ := r
    cases entries with
    | none => rfl
    | some es =>
        simp only [list?_map hd.entry]
        rfl
  rw [ofDoc?, hread, Option.map_some, finish_draft]

/-- Every format is found by its name. -/
theorem ofName?_name
    (f : Format) :
    Format.ofName? f.name = some f := by
  cases f with
  | plain => rfl
  | json => rfl
  | messagePack => rfl

/-- What is written for a report, as text or as octets, is read back as the report without its
empty lists. -/
theorem readAs_writeAs
    (r : Report) (painted : Bool)
    (hr : r.Bounded) :
    ∀ format ∈ [Format.json, Format.messagePack],
      ∃ octets, r.writeAs painted format.name = .ok octets ∧
        readAs octets format.name = .ok r.pruned := by
  have hdoc := fits_toDoc hr
  intro format hformat
  refine ⟨r.write painted format, ?_, ?_⟩
  · rw [writeAs, ofName?_name]
  · rw [readAs, ofName?_name, Option.bind_some]
    rcases List.mem_pair.mp hformat with rfl | rfl
    · have hread : readJson? (r.write painted .json) = some r.pruned := by
        rw [readJson?, write, Text.Utf8.lossy_encode, Doc.Json.parse_render (hdoc 9995)]
        exact ofDoc?_toDoc told_json r
      rw [read?, hread]
    · have hread : readMessagePack? (r.write painted .messagePack) = some r.pruned := by
        rw [readMessagePack?, write, Doc.MessagePack.parse_render (hdoc 0)]
        exact ofDoc?_toDoc told_messagePack r
      rw [read?, hread]

/-- A report with quotes, marks of markup and letters outside the alphabet, a negative number, and
empty lists. -/
def quotedReport : Report where
  stats := { procedures := 1, associations := 1, conditional := 1, pathWarnings := -1 }
  entries := some [
    { var := "größe", kind := "local", definition := "f#2(größe = \"<a>\\t\")",
      use := "f#3(g(größe))", classification := "conditionally-inferrable",
      localUses := some ["f#3(g(größe))"], hardKills := some [],
      possibleKills := some ["f#4(größe = h())"],
      paths := some { expr := "\x7b0\x7d", incoming := some [], departing := some ["3->2"] } }]

/-- The report comes back from both formats, without the two lists that were empty. -/
theorem readAs_writeAs_quotedReport :
    quotedReport.Bounded ∧ quotedReport.pruned ≠ quotedReport ∧
      ∃ text octets,
        quotedReport.writeAs false "json" = .ok text ∧
        readAs text "json" = .ok quotedReport.pruned ∧
        quotedReport.writeAs false "msgpack" = .ok octets ∧
        readAs octets "msgpack" = .ok quotedReport.pruned := by
  have hbounded : quotedReport.Bounded := by decide
  have hread := readAs_writeAs quotedReport false hbounded
  obtain ⟨text, hwritten, hback⟩ := hread .json (by decide)
  obtain ⟨octets, hwritten', hback'⟩ := hread .messagePack (by decide)
  exact ⟨hbounded, by decide, text, octets, hwritten, hback, hwritten', hback'⟩

end Report
end DefUse
