import XsdCatalog.Proofs.FollowedReferences
import XsdCatalog.Proofs.MemberOrder
import XsdCatalog.Proofs.RelativeLocations

/-!
# The files of a collection

The schemas that are read from root files are those of the files that the roots lead to over
references, each file once, and every reference of each of them is accounted for by a document or
by one warning (`collected_files`). A file is opened by the path that a reference resolves to, and
every place on the way to it is asked for by its own path. If one of these paths is too long, the
reference does not count and is warned about, even where the file is there by another path
(`warned_though_returned`).
-/

namespace XsdCatalog

open FileTree (Place placeText)

/-- Neither a path nor the path of a place on its way is too long, so that a file can be opened by
the path and has a canonical path. -/
structure FileTree.WithinLimits (tree : FileTree) (directory : Place) (path : String) : Prop where
  opened : FileTree.isOpenable path = true
  traced : tree.canonical directory path ≠ .error .nameTooLong

/-- The schema in the file at a place. -/
def FileTree.schemaAt? (tree : FileTree) (place : Place) : Option Written.Schema :=
  match tree.textAt place with
  | .ok text => (Written.Schema.parse none (Text.dropByteOrderMark text)).toOption
  | .error _ => none

namespace Collection

variable {tree : FileTree} {directory place : Place} {roots : List String} {c : Collection}
  {log : List Followed}

/-- A reference of the file at a place names another place. -/
def Names (tree : FileTree) (directory place : Place) (r : Written.Reference) (target : Place) :
    Prop :=
  ∃ location, r.location? = some location ∧
    tree.placeNamed directory place location = some target

/-- A reference resolves to a path, seen from the path that its document was read by. -/
def Resolves (directory : Place) (path : String) (r : Written.Reference) (target : String) :
    Prop :=
  ∃ location, r.location? = some location ∧
    resolve (placeText directory) (baseOf path) location = .ok target

/-- The files that roots lead to over references that name schemas. A reference counts unless it
resolves to a path that is too long or leads over a place whose path is too long. -/
inductive Reachable (tree : FileTree) (directory : Place) (roots : List String)
    (documents : List Member) : Place → Prop
  | root {path : String} {place : Place} (mem : path ∈ roots)
      (located : tree.canonical directory path = .ok place) :
    Reachable tree directory roots documents place
  | reference {place target : Place} {s : Written.Schema} {r : Written.Reference}
      (source : Reachable tree directory roots documents place)
      (schema : tree.schemaAt? place = some s) (mem : r ∈ s.references)
      (names : Names tree directory place r target) (accepted : (tree.schemaAt? target).isSome)
      (within : ∀ document ∈ documents, document.place = place →
        ∀ path, Resolves directory document.path r path → tree.WithinLimits directory path) :
    Reachable tree directory roots documents target

/-- What accounts for a reference of a document: a document at the place that it names, or a
warning that it resolves to no path, to a path that leads nowhere or over a place whose path is too
long, or to one by which no schema can be read. -/
inductive Accounted (tree : FileTree) (directory : Place) (places : List Place) (document : Member)
    (r : Written.Reference) : Option Diagnostic → Prop
  | returned {target : Place} (names : Names tree directory document.place r target)
      (mem : target ∈ places) : Accounted tree directory places document r none
  | unresolved {location : String} {e : Error} (has : r.location? = some location)
      (failed : resolve (placeText directory) (baseOf document.path) location = .error e) :
    Accounted tree directory places document r
      (some (.warning ("Schema '" ++ location ++ "' not loaded: " ++ e.message) none))
  | unlocated {path : String} {fault : FileFault}
      (resolves : Resolves directory document.path r path)
      (failed : tree.canonical directory path = .error fault)
      (missing : ∀ target, Names tree directory document.place r target → fault = .nameTooLong) :
    Accounted tree directory places document r (some (unreadableWarning path fault.message))
  | unread {path : String} {target : Place} {e : Error}
      (resolves : Resolves directory document.path r path)
      (names : Names tree directory document.place r target)
      (failed : readAt tree target path = .error e)
      (missing : FileTree.isOpenable path → target ∉ places) :
    Accounted tree directory places document r (some (unreadableWarning path e.message))

/-- A document is what was read at its place by its path, and `outcomes` are what accounts for
its references with a location: nothing, or a warning that was added to it. -/
structure Documented (tree : FileTree) (directory : Place) (places : List Place)
    (document : Member) (content : Written.Schema)
    (outcomes : List (Written.Reference × Option Diagnostic)) : Prop where
  located : tree.canonical directory document.path = .ok document.place
  read : readAt tree document.place document.path = .ok content
  references : outcomes.map (·.1) = content.references.filter (·.location?.isSome)
  accounted : ∀ o ∈ outcomes, Accounted tree directory places document o.1 o.2
  schema : ∃ added, document.schema = { content with diagnostics := content.diagnostics ++ added } ∧
    added.Perm (outcomes.filterMap (·.2))

/-- Documents are all files that roots lead to, each once, and their references are accounted
for. -/
structure Gathered (tree : FileTree) (directory : Place) (roots : List String)
    (documents : List Member) : Prop where
  nodup : (documents.map (·.place)).Nodup
  rooted : ∀ path ∈ roots, ∃ place ∈ documents.map (·.place),
    tree.canonical directory path = .ok place
  mem_iff : ∀ place, place ∈ documents.map (·.place) ↔
    Reachable tree directory roots documents place
  documented : ∀ document ∈ documents, ∃ content outcomes,
    Documented tree directory (documents.map (·.place)) document content outcomes

private theorem exists_schemaAt?_of_readAt {path : String} {s : Written.Schema}
    (h : readAt tree place path = .ok s) :
    FileTree.isOpenable path = true ∧ (tree.file? place).isSome ∧
      ∃ named, tree.schemaAt? place = some named ∧ named.references = s.references := by
  unfold readAt at h
  split at h
  · rename_i hopen
    split at h
    · rename_i text htext
      obtain ⟨-, named, hnamed, href⟩ := Written.Schema.exists_parse h none
      refine ⟨hopen, ?_, named, by simp [FileTree.schemaAt?, htext, hnamed, Except.toOption], href⟩
      unfold FileTree.textAt at htext
      cases hfile : tree.file? place with
      | none => simp [hfile] at htext
      | some bytes => rfl
    · cases h
  · cases h

/-- A schema is read by every path that can be opened. -/
theorem not_isOpenable_of_readAt {path : String} {e : Error}
    (hschema : (tree.schemaAt? place).isSome) (h : readAt tree place path = .error e) :
    ¬ FileTree.isOpenable path := by
  intro hopen
  obtain ⟨s, hs⟩ := Option.isSome_iff_exists.1 hschema
  unfold FileTree.schemaAt? at hs
  rw [readAt, if_pos hopen] at h
  split at hs
  · rename_i text htext
    cases hparse : Written.Schema.parse none (Text.dropByteOrderMark text) with
    | error e => simp [hparse, Except.toOption] at hs
    | ok s =>
      obtain ⟨-, named, hnamed, -⟩ := Written.Schema.exists_parse hparse (some path)
      simp [htext, hnamed] at h
  · cases hs

/-- Each reference with a location is rejected or has a part of the log of its own. -/
theorem exists_outcomes {working path : String} {s : Written.Schema}
    {log : List (Target × Option Diagnostic)}
    (h : (log.map (·.1)).Perm (targets working path s)) :
    ∃ outcomes : List (Written.Reference × Option Diagnostic),
      outcomes.map (·.1) = s.references.filter (·.location?.isSome) ∧
      (∀ o ∈ outcomes, (∃ d, targetOf working (baseOf path) o.1 = some (.error d) ∧ o.2 = some d) ∨
        ∃ t, targetOf working (baseOf path) o.1 = some (.ok t) ∧ (t, o.2) ∈ log) ∧
      (outcomes.filterMap (·.2)).Perm (rejections working path s ++ log.filterMap (·.2)) := by
  unfold targets at h
  unfold rejections
  generalize s.references = references at h ⊢
  -- A reference that resolves takes its part out of the log, the others have the rest of it.
  induction references generalizing log with
  | nil =>
    obtain rfl := List.map_eq_nil_iff.1 h.eq_nil
    exact ⟨[], rfl, List.forall_mem_nil _, .nil⟩
  | cons r references ih =>
    have hlocation : r.location?.isSome = (targetOf working (baseOf path) r).isSome := by
      rw [targetOf, Option.isSome_map]
    cases hr : targetOf working (baseOf path) r with
    | none =>
      rw [hr] at hlocation
      obtain ⟨outcomes, hmap, hall, hperm⟩ := ih (by simpa [hr] using h)
      exact ⟨outcomes, by simpa [hlocation] using hmap, hall, by simpa [hr] using hperm⟩
    | some result =>
      rw [hr] at hlocation
      cases result with
      | error d =>
        obtain ⟨outcomes, hmap, hall, hperm⟩ := ih (by simpa [hr] using h)
        refine ⟨(r, some d) :: outcomes, by simpa [hlocation] using hmap,
          List.forall_mem_cons.2 ⟨.inl ⟨d, hr, rfl⟩, hall⟩, ?_⟩
        simpa [hr] using hperm
      | ok t =>
        simp only [List.filterMap_cons, hr] at h
        obtain ⟨⟨t', warning?⟩, hmem, rfl⟩ := List.mem_map.1 (h.mem_iff.2 List.mem_cons_self)
        obtain ⟨before, after, rfl⟩ := List.append_of_mem hmem
        have hmiddle : (before ++ (t', warning?) :: after).Perm
            ((t', warning?) :: (before ++ after)) := List.perm_middle
        obtain ⟨outcomes, hmap, hall, hperm⟩ :=
          ih ((hmiddle.map fun e => e.1).symm.trans h).cons_inv
        refine ⟨(r, warning?) :: outcomes, by simpa [hlocation] using hmap,
          List.forall_mem_cons.2 ⟨.inr ⟨t', hr, by simp⟩, ?_⟩, ?_⟩
        · intro o ho
          refine (hall o ho).imp_right fun ⟨t, ht, hlog⟩ => ⟨t, ht, ?_⟩
          simp only [List.mem_append, List.mem_cons] at hlog ⊢
          tauto
        · cases warning? with
          | none => simpa [hr] using hperm
          | some d =>
            simp only [List.filterMap_cons, hr, List.filterMap_append, ← List.append_assoc]
              at hperm ⊢
            exact (hperm.cons d).trans List.perm_middle.symm

private theorem mem_targets {working path : String} {s : Written.Schema} {t : Target} :
    t ∈ targets working path s ↔
      ∃ r ∈ s.references, targetOf working (baseOf path) r = some (.ok t) := by
  rw [targets, List.mem_filterMap]
  refine exists_congr fun r => and_congr_right fun _ => ?_
  cases targetOf working (baseOf path) r with
  | none => simp
  | some result => cases result <;> simp

private theorem targetOf_eq_ok {working base : String} {r : Written.Reference} {t : Target}
    (h : targetOf working base r = some (.ok t)) :
    ∃ location, r.location? = some location ∧ resolve working base location = .ok t.path := by
  obtain ⟨location, hlocation, h⟩ := Option.map_eq_some_iff.1 h
  refine ⟨location, hlocation, ?_⟩
  split at h
  · rename_i path hpath
    obtain rfl := Except.ok.inj h
    exact hpath
  · cases h

private theorem targetOf_eq_error {working base : String} {r : Written.Reference} {d : Diagnostic}
    (h : targetOf working base r = some (.error d)) :
    ∃ location e, r.location? = some location ∧ resolve working base location = .error e ∧
      d = .warning ("Schema '" ++ location ++ "' not loaded: " ++ e.message) none := by
  obtain ⟨location, hlocation, h⟩ := Option.map_eq_some_iff.1 h
  refine ⟨location, ?_⟩
  split at h
  · cases h
  · rename_i e he
    exact ⟨e, hlocation, he, (Except.error.inj h).symm⟩

private theorem Names.eq {r : Written.Reference} {target other : Place}
    (h : Names tree directory place r target) (ho : Names tree directory place r other) :
    target = other := by
  obtain ⟨location, hlocation, h⟩ := h
  obtain ⟨location', hlocation', ho⟩ := ho
  obtain rfl := Option.some.inj (hlocation.symm.trans hlocation')
  exact Option.some.inj (h.symm.trans ho)

private theorem Resolves.eq {path target other : String} {r : Written.Reference}
    (h : Resolves directory path r target) (ho : Resolves directory path r other) :
    target = other := by
  obtain ⟨location, hlocation, h⟩ := h
  obtain ⟨location', hlocation', ho⟩ := ho
  obtain rfl := Option.some.inj (hlocation.symm.trans hlocation')
  exact Except.ok.inj (h.symm.trans ho)

/-- A reference of a file names the place that its path leads to. -/
theorem names_iff {base : String} (hdirectory : tree.IsWay directory)
    (hlocated : tree.canonical directory base = .ok place) (hfile : (tree.file? place).isSome)
    {r : Written.Reference} {target : Place} :
    Names tree directory place r target ↔
      ∃ path, Resolves directory base r path ∧ tree.locate directory path = .ok target := by
  replace hlocated := FileTree.locate_of_canonical hdirectory hlocated
  constructor
  · rintro ⟨location, hlocation, hnamed⟩
    rw [FileTree.placeNamed_of_locate hdirectory hlocated hfile] at hnamed
    split at hnamed
    · rename_i path hpath
      refine ⟨path, ⟨location, hlocation, hpath⟩, ?_⟩
      cases hplace : tree.locate directory path with
      | error fault => simp [hplace, Except.toOption] at hnamed
      | ok place => simpa [hplace, Except.toOption] using hnamed
    · cases hnamed
  · rintro ⟨path, ⟨location, hlocation, hpath⟩, hplace⟩
    refine ⟨location, hlocation, ?_⟩
    rw [FileTree.placeNamed_of_locate hdirectory hlocated hfile, hpath]
    simp [hplace, Except.toOption]

/-- What has come of a reference accounts for it. -/
theorem Settled.accounted {places : List Place} {d : Member} {r : Written.Reference} {t : Target}
    {warning? : Option Diagnostic} (h : Settled tree directory places t.path warning?)
    (hdirectory : tree.IsWay directory) (hlocated : tree.canonical directory d.path = .ok d.place)
    (hfile : (tree.file? d.place).isSome)
    (hplaces : ∀ target ∈ places, (tree.schemaAt? target).isSome)
    (ht : targetOf (placeText directory) (baseOf d.path) r = some (.ok t)) :
    Accounted tree directory places d r warning? := by
  have hresolves : Resolves directory d.path r t.path := targetOf_eq_ok ht
  have hnames {target : Place} (h : tree.canonical directory t.path = .ok target) :
      Names tree directory d.place r target :=
    (names_iff hdirectory hlocated hfile).2
      ⟨_, hresolves, FileTree.locate_of_canonical hdirectory h⟩
  cases h with
  | member located mem => exact .returned (hnames located) mem
  | unlocated failed =>
    refine .unlocated hresolves failed fun target hnamed => ?_
    obtain ⟨path, hpath, hplace⟩ := (names_iff hdirectory hlocated hfile).1 hnamed
    obtain rfl := hresolves.eq hpath
    rcases FileTree.canonical_eq_or hdirectory t.path with he | he
    · rw [failed, hplace] at he
      cases he
    · exact Except.error.inj (failed.symm.trans he)
  | unread located failed =>
    refine .unread hresolves (hnames located) failed fun hopen hmem => ?_
    exact not_isOpenable_of_readAt (hplaces _ hmem) failed hopen

/-- The member with the warnings about its references. -/
def documentOf (c : Collection) (member : Nat) : Option Member :=
  c.members[member]?.map fun m =>
    { m with schema := { m.schema with diagnostics :=
        m.schema.diagnostics ++ (c.warnings.filter (·.1 == member)).map (·.2) } }

/-- The members with the warnings about their references, redefined ones first. -/
def documents (c : Collection) : List Member :=
  (order c.members.length c.links).filterMap c.documentOf

private theorem map_schema_documents (c : Collection) : c.documents.map (·.schema) = c.schemas := by
  rw [documents, schemas, List.map_filterMap]
  congr 1
  funext member
  rw [documentOf, schemaOf, Option.map_map]
  rfl

private theorem exists_member_of_mem_documents {d : Member} (h : d ∈ c.documents) :
    ∃ (i : Nat) (m : Member), c.members[i]? = some m ∧ d.place = m.place ∧ d.path = m.path ∧
      d.schema = { m.schema with diagnostics :=
        m.schema.diagnostics ++ (c.warnings.filter (·.1 == i)).map (·.2) } := by
  obtain ⟨i, -, hi⟩ := List.mem_filterMap.1 h
  obtain ⟨m, hm, rfl⟩ := Option.map_eq_some_iff.1 hi
  exact ⟨i, m, hm, rfl, rfl, rfl⟩

private theorem filterMap_range_getElem? {α : Type} (l : List α) :
    (List.range l.length).filterMap (l[·]?) = l := by
  refine List.ext_getElem? fun n => ?_
  rw [getElem?_filterMap_of_isSome fun i hi => by simpa using hi]
  by_cases hn : n < l.length
  · simp [hn]
  · simp [hn]

private theorem perm_places_documents (c : Collection) :
    (c.documents.map (·.place)).Perm c.places := by
  have hplace (i : Nat) : (c.documentOf i).map (·.place) = c.places[i]? := by
    rw [documentOf, places, Option.map_map, List.getElem?_map]
    rfl
  have hall : (List.range c.members.length).filterMap (c.places[·]?) = c.places := by
    simpa [places] using filterMap_range_getElem? c.places
  rw [documents, List.map_filterMap]
  simp only [hplace]
  exact ((perm_order _ _).filterMap _).trans (.of_eq hall)

/-- The part of the log about one member. -/
def logOf (log : List Followed) (member : Nat) : List (Target × Option Diagnostic) :=
  (log.filter (·.source == member)).map fun f => (f.target, f.warning?)

private theorem Following.perm_targets (h : Following tree directory roots c [] log) {i : Nat}
    {m : Member} (hm : c.members[i]? = some m) :
    ((logOf log i).map (·.1)).Perm (targetsOf directory m) := by
  have hrows := (h.references.filter (·.1 == i)).map (·.2)
  rw [filter_numbered hm] at hrows
  simpa [logOf, List.filter_map, Function.comp_def] using hrows

private theorem Following.perm_warnings (h : Following tree directory roots c [] log) {i : Nat}
    {m : Member} (hm : c.members[i]? = some m) :
    ((c.warnings.filter (·.1 == i)).map (·.2)).Perm
      (rejectionsOf directory m ++ (logOf log i).filterMap (·.2)) := by
  have hrows := (h.warnings.filter (·.1 == i)).map (·.2)
  rw [List.filter_append, List.map_append, filter_numbered hm] at hrows
  have hlog : ((log.flatMap fun f => f.warning?.toList.map (f.source, ·)).filter (·.1 == i)).map
      (·.2) = (logOf log i).filterMap (·.2) := by
    clear h hrows
    induction log with
    | nil => rfl
    | cons f log ih =>
      rw [List.flatMap_cons, List.filter_append, List.map_append, ih]
      by_cases hf : f.source = i <;> cases hw : f.warning? <;> simp [logOf, hf, hw]
  rwa [hlog] at hrows

/-- Two members at one place are one member. -/
theorem Following.eq_of_place_eq (h : Following tree directory roots c [] log) {m n : Member}
    (hm : m ∈ c.members) (hn : n ∈ c.members) (hplace : m.place = n.place) : m = n :=
  List.inj_on_of_nodup_map h.nodup hm hn hplace

private theorem Following.isSome_schemaAt? (h : Following tree directory roots c [] log)
    (hplace : place ∈ c.places) : (tree.schemaAt? place).isSome := by
  obtain ⟨m, hm, rfl⟩ := List.mem_map.1 hplace
  obtain ⟨-, -, s, hs, -⟩ := exists_schemaAt?_of_readAt (h.stands m hm).read
  rw [hs]
  rfl

private theorem Following.documented (h : Following tree directory roots c [] log)
    (hdirectory : tree.IsWay directory) {d : Member} (hd : d ∈ c.documents) :
    ∃ content outcomes,
      Documented tree directory (c.documents.map (·.place)) d content outcomes := by
  obtain ⟨i, m, hm, hplace, hpath, hschema⟩ := exists_member_of_mem_documents hd
  obtain ⟨hlocated, hread⟩ := h.stands m (List.mem_of_getElem? hm)
  obtain ⟨outcomes, hreferences, hall, hperm⟩ := exists_outcomes (h.perm_targets hm)
  rw [← hplace, ← hpath] at hlocated hread
  have hperm' := c.perm_places_documents
  refine ⟨m.schema, outcomes, hlocated, hread, hreferences, ?_,
    _, hschema, (h.perm_warnings hm).trans hperm.symm⟩
  intro o ho
  rw [← hpath] at hall
  obtain ⟨e, he, hwarning⟩ | ⟨t, ht, hlog⟩ := hall o ho
  · obtain ⟨location, e', hlocation, hfailed, rfl⟩ := targetOf_eq_error he
    rw [hwarning]
    exact .unresolved hlocation hfailed
  · obtain ⟨f, hf, hpair⟩ := List.mem_map.1 hlog
    obtain ⟨rfl, hwarning⟩ := Prod.mk.inj hpair
    have hsettled := (h.settled f (List.mem_filter.1 hf).1).mono hperm'.symm.subset
    rw [hwarning] at hsettled
    refine hsettled.accounted hdirectory hlocated (exists_schemaAt?_of_readAt hread).2.1 ?_ ht
    exact fun target htarget => h.isSome_schemaAt? (hperm'.mem_iff.1 htarget)

/-- A schema that a reference of a document names is returned. -/
theorem Documented.mem_of_names {places : List Place} {d : Member} {content : Written.Schema}
    {outcomes : List (Written.Reference × Option Diagnostic)}
    (h : Documented tree directory places d content outcomes) (hdirectory : tree.IsWay directory)
    {r : Written.Reference} {target : Place} (hr : r ∈ content.references)
    (hnames : Names tree directory d.place r target) (haccepted : (tree.schemaAt? target).isSome)
    (hwithin : ∀ path, Resolves directory d.path r path → tree.WithinLimits directory path) :
    target ∈ places := by
  have hfile := (exists_schemaAt?_of_readAt h.read).2.1
  obtain ⟨path, hresolves, -⟩ := (names_iff hdirectory h.located hfile).1 hnames
  obtain ⟨location, hlocation, hpath⟩ := id hresolves
  have hmem : r ∈ outcomes.map (·.1) := by
    rw [h.references, List.mem_filter]
    exact ⟨hr, by rw [hlocation]; rfl⟩
  obtain ⟨⟨r, warning?⟩, ho, rfl⟩ := List.mem_map.1 hmem
  -- No warning fits: the path leads to the place and is within the limits, and a schema is there.
  cases h.accounted _ ho with
  | returned names mem => exact hnames.eq names ▸ mem
  | unresolved has failed =>
    obtain rfl := Option.some.inj (hlocation.symm.trans has)
    rw [hpath] at failed
    cases failed
  | unlocated resolves failed missing =>
    rw [missing target hnames] at failed
    exact absurd failed (hwithin _ resolves).traced
  | unread resolves names failed missing =>
    rw [← hnames.eq names] at failed
    exact absurd (hwithin _ resolves).opened (not_isOpenable_of_readAt haccepted failed)

private theorem mem_of_reachable {documents : List Member} (hdirectory : tree.IsWay directory)
    (hrooted : ∀ path ∈ roots, ∃ place ∈ documents.map (·.place),
      tree.canonical directory path = .ok place)
    (hdocumented : ∀ d ∈ documents, ∃ content outcomes,
      Documented tree directory (documents.map (·.place)) d content outcomes)
    (h : Reachable tree directory roots documents place) : place ∈ documents.map (·.place) := by
  induction h with
  | @root path place mem located =>
    obtain ⟨place', hplace', hlocated⟩ := hrooted path mem
    obtain rfl := Except.ok.inj (located.symm.trans hlocated)
    exact hplace'
  | reference source schema mem names accepted within ih =>
    obtain ⟨d, hd, rfl⟩ := List.mem_map.1 ih
    obtain ⟨content, outcomes, hdocument⟩ := hdocumented d hd
    obtain ⟨-, -, named, hnamed, hreferences⟩ := exists_schemaAt?_of_readAt hdocument.read
    obtain rfl := Option.some.inj (schema.symm.trans hnamed)
    exact hdocument.mem_of_names hdirectory (hreferences ▸ mem) names accepted (within d hd rfl)

/-- What stands among the members was led to from the roots. -/
theorem Following.reachable (h : Following tree directory roots c [] log)
    (hdirectory : tree.IsWay directory) {before after : List Member} {m : Member}
    (he : c.members = before ++ m :: after) :
    Reachable tree directory roots c.documents m.place := by
  -- A member that is no root was led to by one of those in front of it.
  induction hn : before.length using Nat.strong_induction_on generalizing before m after with
  | _ n ih =>
    have hstands := h.stands m (by simp [he])
    obtain hroot | ⟨source, hsource, t, ht, hpath⟩ := h.led before m after he
    · exact .root hroot hstands.located
    obtain ⟨earlier, later, rfl⟩ := List.append_of_mem hsource
    have hsource : source ∈ c.members := by simp [he]
    have hbefore : c.members = earlier ++ source :: (later ++ m :: after) := by
      rw [he, List.append_assoc, List.cons_append]
    have hlt : earlier.length < n := by
      rw [← hn, List.length_append, List.length_cons]
      omega
    have hreached := ih earlier.length hlt hbefore rfl
    obtain ⟨r, hr, hresult⟩ := mem_targets.1 ht
    have hresolves : Resolves directory source.path r m.path := hpath ▸ targetOf_eq_ok hresult
    obtain ⟨hopen, -, named, hnamed, -⟩ := exists_schemaAt?_of_readAt hstands.read
    obtain ⟨hlocated, hread⟩ := h.stands source hsource
    obtain ⟨-, hfile, content, hcontent, hreferences⟩ := exists_schemaAt?_of_readAt hread
    refine .reference hreached hcontent (hreferences ▸ hr)
      ((names_iff hdirectory hlocated hfile).2
        ⟨_, hresolves, FileTree.locate_of_canonical hdirectory hstands.located⟩)
      (by rw [hnamed]; rfl) ?_
    intro d hd hplace path hother
    obtain ⟨i, n, hi, hplace', hpath', -⟩ := exists_member_of_mem_documents hd
    obtain rfl := h.eq_of_place_eq (List.mem_of_getElem? hi) hsource (hplace' ▸ hplace)
    rw [hpath'] at hother
    obtain rfl := hother.eq hresolves
    exact ⟨hopen, by simp [hstands.located]⟩

/-- The documents of roots are the files that the roots lead to. -/
theorem gathered_of_ofRoots (hdirectory : tree.IsWay directory)
    (h : ofRoots tree directory roots = .ok c) : Gathered tree directory roots c.documents := by
  obtain ⟨⟨log, hlog⟩, -, hrooted⟩ :=
    (following_start tree directory roots).addRoots (List.Subset.refl _) h
  have hperm := c.perm_places_documents
  have hrooted' : ∀ path ∈ roots, ∃ place ∈ c.documents.map (·.place),
      tree.canonical directory path = .ok place := by
    intro path hpath
    obtain ⟨place, hplace, hlocated⟩ := hrooted path hpath
    exact ⟨place, hperm.mem_iff.2 hplace, hlocated⟩
  refine ⟨hperm.nodup_iff.2 hlog.nodup, hrooted', fun place => ⟨fun hplace => ?_, ?_⟩,
    fun d hd => hlog.documented hdirectory hd⟩
  · obtain ⟨m, hm, rfl⟩ := List.mem_map.1 (hperm.mem_iff.1 hplace)
    obtain ⟨before, after, he⟩ := List.append_of_mem hm
    exact hlog.reachable hdirectory he
  · exact mem_of_reachable hdirectory hrooted' fun d hd => hlog.documented hdirectory hd

/-- Following references comes to an end. The documents are the files that the roots lead to, each
once, and each reference of them is accounted for once. Only a root that is not loaded yet and
leads nowhere or cannot be read is an error. -/
theorem collected_files (tree : FileTree) (directory : Place) (roots : List String)
    (hdirectory : tree.IsWay directory) :
    (∀ c stack, ∃ n,
      (advance tree directory)^[n] (c, stack) = (follow tree directory c stack, [])) ∧
    (∀ schemas, readSchemas tree directory roots = .ok schemas →
      ∃ documents : List Member, documents.map (·.schema) = schemas ∧
        Gathered tree directory roots documents) ∧
    ∀ e, readSchemas tree directory roots = .error e →
      ∃ before path after loaded, roots = before ++ path :: after ∧
        ofRoots tree directory before = .ok loaded ∧
        ((∃ fault, tree.canonical directory path = .error fault ∧
          e = .schema ("Cannot resolve schema path '" ++ path ++ "': " ++ fault.message)) ∨
        ∃ place, tree.canonical directory path = .ok place ∧ place ∉ loaded.places ∧
          readAt tree place path = .error e) := by
  refine ⟨exists_iterate_advance tree directory, ?_, ?_⟩
  · intro schemas h
    cases hroots : ofRoots tree directory roots with
    | error e =>
      rw [readSchemas, hroots] at h
      cases h
    | ok c =>
      rw [readSchemas, hroots] at h
      obtain rfl := Except.ok.inj h
      exact ⟨c.documents, c.map_schema_documents, gathered_of_ofRoots hdirectory hroots⟩
  · intro e h
    cases hroots : ofRoots tree directory roots with
    | error e' =>
      rw [readSchemas, hroots] at h
      obtain rfl := Except.error.inj h
      exact exists_root_of_addRoots hroots
    | ok c =>
      rw [readSchemas, hroots] at h
      cases h

/-- A path that goes down and up again. -/
def winding : Nat → String
  | 0 => "d/.."
  | n + 1 => winding n ++ "/" ++ "d/.."

/-- A document that includes the other one. -/
def includingText : String :=
  "<schema xmlns=\"http://www.w3.org/2001/XMLSchema\">" ++
    "<include schemaLocation=\"common-declarations.xsd\"/></schema>"

def includedText : String :=
  "<schema xmlns=\"http://www.w3.org/2001/XMLSchema\"/>"

/-- The two documents beside an empty directory. -/
def windingTree : FileTree where
  files := [(["main.xsd"], Text.toBytes includingText),
    (["common-declarations.xsd"], Text.toBytes includedText)]
  directories := [["d"]]

/-- The one document by a long path, the other one by a short path. -/
def windingRoots (n : Nat) : List String :=
  [winding n ++ "/" ++ "main.xsd", "common-declarations.xsd"]

private theorem getLast?_winding (n : Nat) : (winding n).toList.getLast? = some '.' := by
  cases n <;> simp [winding]

private theorem winding_ne (n : Nat) : winding n ≠ "" := by
  intro he
  have hlast := getLast?_winding n
  rw [he] at hlast
  cases hlast

private theorem isAbsolute_winding (n : Nat) : Path.isAbsolute (winding n) = false := by
  induction n with
  | zero => decide
  | succ n ih =>
    have hfront : (winding n).toList <+: (winding (n + 1)).toList :=
      ⟨_, by rw [winding, String.append_assoc, String.toList_append]⟩
    rw [← Path.isAbsolute_eq_of_front hfront (winding_ne n), ih]

private theorem exists_parts_winding (n : Nat) : ∃ ps, Path.parts (winding n) = ps ++ [".."] := by
  induction n with
  | zero => exact ⟨["d"], rfl⟩
  | succ n ih =>
    refine ⟨Path.parts (winding n) ++ ["d"], ?_⟩
    rw [winding, Path.parts_append_slash, List.append_assoc]
    rfl

private theorem join_winding (n : Nat) {name : String} (hname : Path.isAbsolute name = false) :
    Path.join (winding n) name = winding n ++ "/" ++ name := by
  rw [Path.join, if_neg (by simp [hname]),
    if_neg (by simp [winding_ne n, getLast?_winding n])]

private theorem isOpenable_winding (n : Nat) (name : String) :
    FileTree.isOpenable (winding n ++ "/" ++ name)
      = decide (5 * n + 5 + name.utf8ByteSize ≤ FileTree.maxPathBytes) := by
  have hsize : (winding n).utf8ByteSize = 5 * n + 4 := by
    induction n with
    | zero => rfl
    | succ n ih =>
      rw [winding, String.utf8ByteSize_append, String.utf8ByteSize_append, ih]
      rfl
  rw [FileTree.isOpenable, String.utf8ByteSize_append, String.utf8ByteSize_append, hsize]
  rfl

private theorem hasZero_winding (n : Nat) : FileTree.hasZero (winding n) = false := by
  induction n with
  | zero => decide
  | succ n ih =>
    rw [FileTree.hasZero] at ih ⊢
    simpa [winding] using ih

/-- Behind the winding path, parts lead to where they lead from the root. -/
theorem trace_winding (n : Nat) (ps : List String) :
    windingTree.trace [] (Path.parts (winding n) ++ ps) = windingTree.trace [] ps := by
  have hround (ps : List String) :
      windingTree.trace [] ("d" :: ".." :: ps) = windingTree.trace [] ps := by
    have hask : windingTree.ask [] "d" true = .ok ["d"] := by decide
    simp [FileTree.trace, FileTree.asksDirectory, hask]
  induction n generalizing ps with
  | zero => exact hround ps
  | succ n ih =>
    rw [winding, Path.parts_append_slash, List.append_assoc, ih]
    exact hround ps

private theorem canonical_winding_append (n : Nat) {name : String} (hname : name ≠ "")
    (hrelative : Path.isAbsolute name = false) :
    windingTree.canonical [] (winding n ++ "/" ++ name) = windingTree.canonical [] name := by
  have hfront : (winding n).toList <+: (winding n ++ "/" ++ name).toList :=
    ⟨_, by rw [String.append_assoc, String.toList_append]⟩
  have hrelative' : Path.isAbsolute (winding n ++ "/" ++ name) = false := by
    rw [← Path.isAbsolute_eq_of_front hfront (winding_ne n), isAbsolute_winding]
  have hzero : FileTree.hasZero (winding n ++ "/" ++ name) = FileTree.hasZero name := by
    have hnone := hasZero_winding n
    rw [FileTree.hasZero] at hnone ⊢
    simp_all [FileTree.hasZero]
  have hne : winding n ++ "/" ++ name ≠ "" := by simp
  rw [FileTree.canonical, FileTree.canonical, if_neg hne, if_neg hname, hzero, hrelative',
    hrelative, Path.parts_append_slash]
  simp only [Bool.false_eq_true, if_false, trace_winding]

/-- From the long path, the location resolves to a longer one. -/
theorem resolve_winding (n : Nat) :
    resolve (placeText []) (baseOf (winding n ++ "/" ++ "main.xsd")) "common-declarations.xsd"
      = .ok (winding n ++ "/" ++ "common-declarations.xsd") := by
  obtain ⟨ps, hps⟩ := exists_parts_winding n
  have hparent : Path.parent? (winding n ++ "/" ++ "main.xsd") = some (winding n) :=
    Path.parent?_append_slash (isAbsolute_winding n) hps (by decide) (by decide) (by decide)
  have htrim : Text.trim "common-declarations.xsd" = "common-declarations.xsd" := by decide
  rw [resolve, htrim, baseOf, hparent, Option.getD_some, join_winding n (by decide)]
  rfl

/-- A document without declarations is read without diagnostics. -/
theorem exists_read_winding {name text : String} (locations : List (Option String))
    (htext : windingTree.textAt [name] = .ok text) (hmark : Text.dropByteOrderMark text = text)
    (hsize : text.utf8ByteSize ≤ Written.maxBytes)
    (hroot : (((Markup.Document.read? text).bind Written.schemaRoot?).map fun root =>
      ((Written.candidates root.children).length,
        (root.children.filterMap Written.reference?).map (·.location?))) = some (0, locations))
    {path : String} (hopen : FileTree.isOpenable path) :
    ∃ s, readAt windingTree [name] path = .ok s ∧ s.diagnostics = [] ∧
      s.references.map (·.location?) = locations := by
  obtain ⟨root, hroot, hpair⟩ := Option.map_eq_some_iff.1 hroot
  obtain ⟨doc, hdoc, hroot⟩ := Option.bind_eq_some_iff.1 hroot
  obtain ⟨hitems, hlocations⟩ := Prod.mk.inj hpair
  refine ⟨Written.readSchema (some path) root, ?_, ?_, hlocations⟩
  · rw [readAt, if_pos hopen, htext]
    simp only [hmark, Written.Schema.parse, Nat.not_lt.2 hsize, hdoc, hroot, if_false]
  · rw [Written.readSchema, List.length_eq_zero_iff.1 hitems]
    rfl

/-- Two roots are read, and the only reference of the first one resolves to another path of the
second one, by which it cannot be read. -/
theorem ofRoots_of_unread {main other : Place} {mainPath path target : String}
    {first second : Written.Schema} {r : Written.Reference} {e : Error}
    (hmain : tree.canonical directory mainPath = .ok main)
    (htarget : tree.canonical directory target = .ok other)
    (hother : tree.canonical directory path = .ok other) (hne : main ≠ other)
    (hfirst : readAt tree main mainPath = .ok first)
    (hunread : readAt tree other target = .error e)
    (hsecond : readAt tree other path = .ok second) (hreferences : first.references = [r])
    (hresolved : targetOf (placeText directory) (baseOf mainPath) r
      = some (.ok ⟨target, r.isRedefinition⟩))
    (hreferences' : second.references = []) :
    ofRoots tree directory [mainPath, path]
      = .ok { members := [⟨main, first⟩, ⟨other, second⟩]
              warnings := [(0, unreadableWarning target e.message)] } := by
  have htargets : targets (placeText directory) mainPath first = [⟨target, r.isRedefinition⟩] := by
    simp [targets, hreferences, hresolved]
  have hrejections : rejections (placeText directory) mainPath first = [] := by
    simp [rejections, hreferences, hresolved]
  have htargets' : targets (placeText directory) path second = [] := by
    simp [targets, hreferences']
  have hrejections' : rejections (placeText directory) path second = [] := by
    simp [rejections, hreferences']
  simp [ofRoots, addRoots, follow_cons, advance, hmain, htarget, hother, hne, hfirst, hsecond,
    hunread, find?, places, Collection.add, warn, pendingOf, htargets, hrejections,
    warnUnreadable, unreadableWarning, htargets', hrejections']

/-- The document is read by the long path. The document that it includes cannot be, and is read
as a root. -/
theorem exists_schemas_winding {n : Nat}
    (hmain : FileTree.isOpenable (winding n ++ "/" ++ "main.xsd") = true)
    (hcommon : FileTree.isOpenable (winding n ++ "/" ++ "common-declarations.xsd") = false) :
    ∃ first second r, readSchemas windingTree [] (windingRoots n) = .ok [first, second] ∧
      first.references = [r] ∧ r.location? = some "common-declarations.xsd" ∧
      first.diagnostics = [unreadableWarning (winding n ++ "/" ++ "common-declarations.xsd")
        (unreadable (winding n ++ "/" ++ "common-declarations.xsd") .nameTooLong).message] ∧
      second.document = some "common-declarations.xsd" := by
  have htext : windingTree.textAt ["main.xsd"] = .ok includingText := by decide +kernel
  obtain ⟨first, hfirst, hdiagnostics, hlocations⟩ := exists_read_winding
    [some "common-declarations.xsd"] htext (by decide +kernel) (by decide +kernel)
    (by decide +kernel) hmain
  obtain ⟨r, hreferences, hlocation⟩ := List.map_eq_singleton_iff.1 hlocations
  have htext' : windingTree.textAt ["common-declarations.xsd"] = .ok includedText := by
    decide +kernel
  have hshort : FileTree.isOpenable "common-declarations.xsd" := by decide
  obtain ⟨second, hsecond, hdiagnostics', hlocations'⟩ := exists_read_winding
    [] htext' (by decide +kernel) (by decide +kernel) (by decide +kernel) hshort
  have hreferences' := List.map_eq_nil_iff.1 hlocations'
  have hplaceMain : windingTree.canonical [] (winding n ++ "/" ++ "main.xsd") = .ok ["main.xsd"] :=
    (canonical_winding_append n (by decide) (by decide)).trans (by decide)
  have hplaceCommon : windingTree.canonical [] (winding n ++ "/" ++ "common-declarations.xsd")
      = .ok ["common-declarations.xsd"] :=
    (canonical_winding_append n (by decide) (by decide)).trans (by decide)
  have hunread : readAt windingTree ["common-declarations.xsd"]
      (winding n ++ "/" ++ "common-declarations.xsd")
      = .error (unreadable (winding n ++ "/" ++ "common-declarations.xsd") .nameTooLong) := by
    rw [readAt, hcommon]
    rfl
  have htarget : targetOf (placeText []) (baseOf (winding n ++ "/" ++ "main.xsd")) r
      = some (.ok ⟨winding n ++ "/" ++ "common-declarations.xsd", r.isRedefinition⟩) := by
    rw [targetOf, hlocation, Option.map_some, resolve_winding n]
  have hroots : ofRoots windingTree [] (windingRoots n)
      = .ok { members := [⟨["main.xsd"], first⟩, ⟨["common-declarations.xsd"], second⟩]
              warnings := [(0, unreadableWarning (winding n ++ "/" ++ "common-declarations.xsd")
                (unreadable (winding n ++ "/" ++ "common-declarations.xsd")
                  .nameTooLong).message)] } :=
    ofRoots_of_unread hplaceMain hplaceCommon (by decide) (by decide) hfirst hunread hsecond
      hreferences htarget hreferences'
  refine ⟨{ first with diagnostics := [unreadableWarning
    (winding n ++ "/" ++ "common-declarations.xsd")
    (unreadable (winding n ++ "/" ++ "common-declarations.xsd") .nameTooLong).message] },
    second, r, ?_, hreferences, hlocation, rfl, document_of_readAt hsecond⟩
  have horder : order 2 [] = [0, 1] := by simp [order, arrange, tasks, linked, List.range_succ]
  have hsame : { second with diagnostics := [] } = second := by rw [← hdiagnostics']
  rw [readSchemas, hroots]
  simp [Except.map, schemas, schemaOf, horder, hdiagnostics, hdiagnostics', hsame]

/-- A path of 4083 bytes, from which the location resolves to a path of 4098 bytes. -/
theorem isOpenable_windingRoots :
    FileTree.isOpenable (winding 814 ++ "/" ++ "main.xsd") = true ∧
      FileTree.isOpenable (winding 814 ++ "/" ++ "common-declarations.xsd") = false := by
  rw [isOpenable_winding, isOpenable_winding]
  decide

theorem gathered_windingRoots : windingTree.IsWay [] ∧ ∃ first second documents,
    readSchemas windingTree [] (windingRoots 814) = .ok [first, second] ∧
    documents.map (·.schema) = [first, second] ∧
    Gathered windingTree [] (windingRoots 814) documents := by
  have hway : windingTree.IsWay [] := by
    intro above habove
    obtain rfl := List.prefix_nil.1 habove
    decide
  obtain ⟨hmain, hcommon⟩ := isOpenable_windingRoots
  obtain ⟨first, second, r, hread, -⟩ := exists_schemas_winding hmain hcommon
  obtain ⟨documents, hschemas, hgathered⟩ :=
    (collected_files windingTree [] (windingRoots 814) hway).2.1 _ hread
  exact ⟨hway, first, second, documents, hread, hschemas, hgathered⟩

/-- The included document is returned, and the including one has a warning that it cannot be
read. -/
theorem warned_though_returned : ∃ first second r,
    readSchemas windingTree [] (windingRoots 814) = .ok [first, second] ∧
    first.references = [r] ∧ Names windingTree [] ["main.xsd"] r ["common-declarations.xsd"] ∧
    second.document = some "common-declarations.xsd" ∧
    windingTree.canonical [] "common-declarations.xsd" = .ok ["common-declarations.xsd"] ∧
    first.diagnostics = [unreadableWarning (winding 814 ++ "/" ++ "common-declarations.xsd")
      (unreadable (winding 814 ++ "/" ++ "common-declarations.xsd") .nameTooLong).message] := by
  obtain ⟨hmain, hcommon⟩ := isOpenable_windingRoots
  obtain ⟨first, second, r, hread, hreferences, hlocation, hwarning, hdocument⟩ :=
    exists_schemas_winding hmain hcommon
  exact ⟨first, second, r, hread, hreferences, ⟨_, hlocation, by decide⟩, hdocument, by decide,
    hwarning⟩

end Collection

end XsdCatalog
