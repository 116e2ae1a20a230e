import Mathlib.Data.List.Induction
import Mathlib.Data.List.Nodup
import Mathlib.Data.Set.Function
import XsdCatalog.Collection.Basic

/-!
# References on the way

References are followed one by one, those of a file that is loaded on the way before the others.
Each step leaves fewer files to load or fewer references to follow, so the row of references runs
out whatever circles they form (`exists_iterate_advance`). `Following` says what every step keeps:
each member stands at its place once and was led to, and each reference of a member is still to be
followed, or leads to a member, or is told of in one warning.
-/

namespace XsdCatalog

open FileTree (Place placeText)

/-- What a document says does not depend on its name. -/
theorem Written.Schema.exists_parse {document : Option String} {text : String}
    {s : Written.Schema} (h : parse document text = .ok s) (name : Option String) :
    s.document = document ∧
      ∃ named, parse name text = .ok named ∧ named.references = s.references := by
  unfold parse at h ⊢
  split_ifs at h ⊢
  split at h
  · cases h
  · split at h
    · cases h
    · cases h
      exact ⟨rfl, _, rfl, rfl⟩

/-- The path that a member was read by. -/
def Member.path (m : Member) : String :=
  m.schema.document.getD ""

/-- A member stands at the place that its path leads to, and is what is read there. -/
structure Member.Stands (tree : FileTree) (directory : Place) (m : Member) : Prop where
  located : tree.canonical directory m.path = .ok m.place
  read : Collection.readAt tree m.place m.path = .ok m.schema

namespace Collection

variable {tree : FileTree} {directory place : Place} {roots : List String} {c : Collection}
  {p : Pending} {stack : List Pending}

@[simp] theorem members_add (c : Collection) (directory : Place) (path : String) (m : Member) :
    (c.add directory path m).members = c.members ++ [m] := rfl

@[simp] private theorem places_add (c : Collection) (directory : Place) (path : String)
    (m : Member) : (c.add directory path m).places = c.places ++ [m.place] :=
  List.map_append

@[simp] theorem places_warn (c : Collection) (member : Nat) (ds : List Diagnostic) :
    (c.warn member ds).places = c.places := rfl

@[simp] theorem places_link (c : Collection) (p : Pending) (target : Nat) :
    (c.link p target).places = c.places := rfl

theorem mem_places_of_find? {member : Nat} (h : c.find? place = some member) :
    place ∈ c.places ∧ member < c.members.length := by
  obtain ⟨hlt, he, -⟩ := List.findIdx?_eq_some_iff_getElem.1 h
  refine ⟨?_, by simpa [places] using hlt⟩
  rw [← beq_iff_eq.1 he]
  exact List.getElem_mem hlt

/-- Follows the first reference of a row. -/
def advance (tree : FileTree) (directory : Place) :
    Collection × List Pending → Collection × List Pending
  | (c, []) => (c, [])
  | (c, p :: stack) =>
    match tree.canonical directory p.target.path with
    | .error fault => (c.warnUnreadable p fault.message, stack)
    | .ok place =>
      match c.find? place with
      | some member => (c.link p member, stack)
      | none =>
        match readAt tree place p.target.path with
        | .error e => (c.warnUnreadable p e.message, stack)
        | .ok schema =>
          ((c.add directory p.target.path ⟨place, schema⟩).link p c.members.length,
            c.pendingOf directory p.target.path schema ++ stack)

/-- What following a reference amounts to. -/
inductive Step (tree : FileTree) (directory : Place) (c : Collection) (p : Pending)
    (stack : List Pending) : Collection × List Pending → Prop
  | unlocated {fault : FileFault} (failed : tree.canonical directory p.target.path = .error fault) :
    Step tree directory c p stack (c.warnUnreadable p fault.message, stack)
  | known {place : Place} {member : Nat}
      (located : tree.canonical directory p.target.path = .ok place)
      (found : c.find? place = some member) :
    Step tree directory c p stack (c.link p member, stack)
  | unread {place : Place} {e : Error} (located : tree.canonical directory p.target.path = .ok place)
      (failed : readAt tree place p.target.path = .error e) :
    Step tree directory c p stack (c.warnUnreadable p e.message, stack)
  | loaded {place : Place} {schema : Written.Schema}
      (located : tree.canonical directory p.target.path = .ok place) (new : c.find? place = none)
      (read : readAt tree place p.target.path = .ok schema) :
    Step tree directory c p stack
      ((c.add directory p.target.path ⟨place, schema⟩).link p c.members.length,
        c.pendingOf directory p.target.path schema ++ stack)

private theorem step_advance (tree : FileTree) (directory : Place) (c : Collection) (p : Pending)
    (stack : List Pending) :
    Step tree directory c p stack (advance tree directory (c, p :: stack)) := by
  rw [advance]
  split
  · exact .unlocated ‹_›
  · split
    · exact .known ‹_› ‹_›
    · split
      · exact .unread ‹_› ‹_›
      · exact .loaded ‹_› ‹_› ‹_›

@[simp] theorem follow_nil (tree : FileTree) (directory : Place) (c : Collection) :
    follow tree directory c [] = c := by
  rw [follow]

theorem follow_cons (tree : FileTree) (directory : Place) (c : Collection) (p : Pending)
    (stack : List Pending) :
    follow tree directory c (p :: stack) =
      follow tree directory (advance tree directory (c, p :: stack)).1
        (advance tree directory (c, p :: stack)).2 := by
  rw [follow]
  split
  · rename_i hlocate
    simp only [advance, hlocate]
  · rename_i place hlocate
    split
    · rename_i hfind
      simp only [advance, hlocate, hfind]
    · rename_i hfind
      split
      · rename_i hread
        simp only [advance, hlocate, hfind, hread]
      · rename_i hread
        simp only [advance, hlocate, hfind, hread]

private theorem exists_iterate_of_advance {state last : Collection × List Pending}
    (h : ∃ n, (advance tree directory)^[n] (advance tree directory state) = last) :
    ∃ n, (advance tree directory)^[n] state = last :=
  let ⟨n, hn⟩ := h
  ⟨n + 1, hn⟩

/-- The row of references runs out. -/
theorem exists_iterate_advance (tree : FileTree) (directory : Place) (c : Collection)
    (stack : List Pending) :
    ∃ n, (advance tree directory)^[n] (c, stack) = (follow tree directory c stack, []) := by
  fun_induction follow tree directory c stack with
  | case1 c => exact ⟨0, rfl⟩
  | case2 c p stack fault hlocate ih =>
    exact exists_iterate_of_advance (by simpa only [advance, hlocate] using ih)
  | case3 c p stack place hlocate member hfind ih =>
    exact exists_iterate_of_advance (by simpa only [advance, hlocate, hfind] using ih)
  | case4 c p stack place hlocate hfind e hread ih =>
    exact exists_iterate_of_advance (by simpa only [advance, hlocate, hfind, hread] using ih)
  | case5 c p stack place hlocate hfind schema hread _ ih =>
    exact exists_iterate_of_advance (by simpa only [advance, hlocate, hfind, hread] using ih)

/-- What every step keeps holds when the row of references has run out. -/
theorem holds_follow (holds : Collection × List Pending → Prop)
    (hstep : ∀ c p stack next, Step tree directory c p stack next → holds (c, p :: stack) →
      holds next)
    (h : holds (c, stack)) : holds (follow tree directory c stack, []) := by
  have hadvance : Set.MapsTo (advance tree directory) {s | holds s} {s | holds s} := by
    rintro ⟨c, stack⟩ hs
    cases stack with
    | nil => exact hs
    | cons p stack => exact hstep c p stack _ (step_advance tree directory c p stack) hs
  obtain ⟨n, hn⟩ := exists_iterate_advance tree directory c stack
  exact hn ▸ hadvance.iterate n h

private theorem places_subset_follow (c : Collection) (stack : List Pending) :
    c.places ⊆ (follow tree directory c stack).places := by
  refine holds_follow (fun s => c.places ⊆ s.1.places) ?_ (List.Subset.refl _)
  rintro d p stack next (_ | _ | _ | _) h
  · exact h
  · exact h
  · exact h
  · exact List.Subset.trans h (by simp)

section Numbered

variable {α : Type} {f : Member → List α} {members : List Member} {m : Member} {i : Nat} {a : α}

/-- What a function gives for each member, with the number of the member. -/
def numbered (f : Member → List α) (members : List Member) : List (Nat × α) :=
  members.zipIdx.flatMap fun p => (f p.1).map (p.2, ·)

private theorem numbered_concat (f : Member → List α) (members : List Member) (m : Member) :
    numbered f (members ++ [m]) = numbered f members ++ (f m).map (members.length, ·) := by
  simp [numbered, List.zipIdx_append]

theorem mem_numbered : (i, a) ∈ numbered f members ↔ ∃ m, members[i]? = some m ∧ a ∈ f m := by
  simp only [numbered, List.mem_flatMap, List.mem_map, Prod.exists, List.mem_zipIdx_iff_getElem?]
  constructor
  · rintro ⟨m, j, hm, b, hb, he⟩
    obtain ⟨rfl, rfl⟩ := Prod.mk.inj he
    exact ⟨m, hm, hb⟩
  · rintro ⟨m, hm, ha⟩
    exact ⟨m, i, hm, a, ha, rfl⟩

private theorem lt_of_mem_numbered {row : Nat × α} (h : row ∈ numbered f members) :
    row.1 < members.length := by
  obtain ⟨m, hm, -⟩ := mem_numbered.1 h
  exact (List.getElem?_eq_some_iff.1 hm).1

/-- The part of a row that is about one member. -/
theorem filter_numbered (h : members[i]? = some m) :
    ((numbered f members).filter (·.1 == i)).map (·.2) = f m := by
  have hother (rows : List (Nat × α)) (j : Nat) (hj : ∀ row ∈ rows, row.1 ≠ j) :
      rows.filter (·.1 == j) = [] := by
    simpa [List.filter_eq_nil_iff] using hj
  induction members using List.reverseRecOn with
  | nil => cases h
  | append_singleton members last ih =>
    rw [numbered_concat, List.filter_append, List.map_append]
    by_cases hi : i < members.length
    · rw [List.getElem?_append_left hi] at h
      rw [ih h, hother _ _ (by simp; omega), List.map_nil, List.append_nil]
    · obtain rfl : i = members.length := by
        have := (List.getElem?_eq_some_iff.1 h).1
        rw [List.length_append, List.length_singleton] at this
        omega
      obtain rfl : last = m := by simpa using h
      rw [hother _ _ fun row hrow => (lt_of_mem_numbered hrow).ne]
      simp [List.filter_map, Function.comp_def]

end Numbered

/-- Where the references of a member lead. -/
def targetsOf (directory : Place) (m : Member) : List Target :=
  targets (placeText directory) m.path m.schema

/-- The warnings about references of a member that name no path. -/
def rejectionsOf (directory : Place) (m : Member) : List Diagnostic :=
  rejections (placeText directory) m.path m.schema

/-- A reference that was followed, with a warning if it leads to no schema. -/
structure Followed where
  source : Nat
  target : Target
  warning? : Option Diagnostic

/-- The warning where a reference leads to nothing that can be read. -/
def unreadableWarning (path reason : String) : Diagnostic :=
  .warning ("Cannot read schema '" ++ path ++ "': " ++ reason) none

/-- What comes of a reference to a path. -/
inductive Settled (tree : FileTree) (directory : Place) (places : List Place) (path : String) :
    Option Diagnostic → Prop
  | member {place : Place} (located : tree.canonical directory path = .ok place)
      (mem : place ∈ places) : Settled tree directory places path none
  | unlocated {fault : FileFault} (failed : tree.canonical directory path = .error fault) :
    Settled tree directory places path (some (unreadableWarning path fault.message))
  | unread {place : Place} {e : Error} (located : tree.canonical directory path = .ok place)
      (failed : readAt tree place path = .error e) :
    Settled tree directory places path (some (unreadableWarning path e.message))

theorem Settled.mono {places more : List Place} {path : String} {warning? : Option Diagnostic}
    (h : Settled tree directory places path warning?) (hsub : places ⊆ more) :
    Settled tree directory more path warning? := by
  cases h with
  | member located mem => exact .member located (hsub mem)
  | unlocated failed => exact .unlocated failed
  | unread located failed => exact .unread located failed

/-- A path leads to a member by a reference of an earlier one, or it is a root. -/
def LedTo (directory : Place) (roots : List String) (members : List Member) (path : String) :
    Prop :=
  path ∈ roots ∨ ∃ m ∈ members, ∃ t ∈ targetsOf directory m, t.path = path

/-- The state while references are followed. `log` holds those that were followed. -/
structure Following (tree : FileTree) (directory : Place) (roots : List String) (c : Collection)
    (stack : List Pending) (log : List Followed) : Prop where
  nodup : c.places.Nodup
  stands : ∀ m ∈ c.members, m.Stands tree directory
  led : ∀ before m after, c.members = before ++ m :: after → LedTo directory roots before m.path
  references : (log.map (fun f => (f.source, f.target)) ++
    stack.map fun p => (p.source, p.target)).Perm (numbered (targetsOf directory) c.members)
  warnings : c.warnings.Perm (numbered (rejectionsOf directory) c.members ++
    log.flatMap fun f => f.warning?.toList.map (f.source, ·))
  settled : ∀ f ∈ log, Settled tree directory c.places f.target.path f.warning?
  links : ∀ l ∈ c.links, l.source < c.members.length ∧ l.target < c.members.length

variable {log : List Followed}

theorem following_start (tree : FileTree) (directory : Place) (roots : List String) :
    Following tree directory roots {} [] [] where
  nodup := List.nodup_nil
  stands := List.forall_mem_nil _
  led before m after h := by simp at h
  references := .nil
  warnings := .nil
  settled := List.forall_mem_nil _
  links := List.forall_mem_nil _

theorem Following.mem_numbered (front : List Pending)
    (h : Following tree directory roots c (front ++ p :: stack) log) :
    (p.source, p.target) ∈ numbered (targetsOf directory) c.members :=
  h.references.mem_iff.1 (by simp)

/-- A new member is taken up with its references to be followed first. -/
theorem Following.add (h : Following tree directory roots c stack log) {m : Member}
    (hstands : m.Stands tree directory) (hnew : c.find? m.place = none)
    (hled : LedTo directory roots c.members m.path) :
    Following tree directory roots (c.add directory m.path m)
      (c.pendingOf directory m.path m.schema ++ stack) log where
  nodup := by
    rw [places_add, ← List.concat_eq_append]
    exact h.nodup.concat (not_mem_places_of_find? hnew)
  stands := by
    intro n hn
    obtain hn | rfl : n ∈ c.members ∨ n = m := by simpa using hn
    · exact h.stands n hn
    · exact hstands
  led before n after he := by
    rw [members_add] at he
    obtain rfl | ⟨after, last, rfl⟩ := after.eq_nil_or_concat'
    · obtain ⟨rfl, hm⟩ := List.append_inj' he rfl
      obtain rfl := List.singleton_inj.1 hm
      exact hled
    · rw [← List.cons_append, ← List.append_assoc] at he
      exact h.led before n after (List.append_inj' he rfl).1
  -- The new references come first in the row and last among those of the members.
  references := by
    have hpending : (c.pendingOf directory m.path m.schema).map (fun p => (p.source, p.target))
        = (targetsOf directory m).map (c.members.length, ·) := by
      simp [pendingOf, targetsOf]
    rw [members_add, numbered_concat, List.map_append, hpending]
    refine List.Perm.trans ?_ (h.references.append_right _)
    rw [List.append_assoc]
    exact List.perm_append_comm.append_left _
  warnings := by
    rw [members_add, numbered_concat]
    refine (h.warnings.append_right _).trans ?_
    rw [List.append_assoc, List.append_assoc]
    exact List.perm_append_comm.append_left _
  settled f hf := (h.settled f hf).mono (by simp)
  links l hl := by
    have := h.links l hl
    rw [members_add, List.length_append, List.length_singleton]
    omega

/-- The first reference behind those of a new member leads to a member. -/
theorem Following.link (front : List Pending)
    (h : Following tree directory roots c (front ++ p :: stack) log) {member : Nat}
    (hlocated : tree.canonical directory p.target.path = .ok place)
    (hplace : place ∈ c.places) (hmember : member < c.members.length) :
    Following tree directory roots (c.link p member) (front ++ stack)
      (⟨p.source, p.target, none⟩ :: log) where
  nodup := h.nodup
  stands := h.stands
  led := h.led
  references := by
    refine .trans ?_ h.references
    simp only [List.map_cons, List.map_append, List.cons_append]
    rw [← List.append_assoc, ← List.append_assoc]
    exact List.perm_middle.symm
  warnings := h.warnings
  settled := List.forall_mem_cons.2 ⟨.member hlocated hplace, h.settled⟩
  links l hl := by
    obtain hl | rfl := by simpa [Collection.link] using hl
    · exact h.links l hl
    · exact ⟨lt_of_mem_numbered (h.mem_numbered front), hmember⟩

/-- The first reference leads to no schema. -/
theorem Following.warn (h : Following tree directory roots c (p :: stack) log) {d : Diagnostic}
    (hsettled : Settled tree directory c.places p.target.path (some d)) :
    Following tree directory roots (c.warn p.source [d]) stack
      (⟨p.source, p.target, some d⟩ :: log) where
  nodup := h.nodup
  stands := h.stands
  led := h.led
  references := List.perm_middle.symm.trans h.references
  warnings := by
    refine (h.warnings.append_right _).trans ?_
    rw [List.append_assoc]
    exact List.perm_append_comm.append_left _
  settled := List.forall_mem_cons.2 ⟨hsettled, h.settled⟩
  links := h.links

theorem document_of_readAt {path : String} {s : Written.Schema}
    (h : readAt tree place path = .ok s) : s.document = some path := by
  unfold readAt at h
  split at h
  · split at h
    · exact (Written.Schema.exists_parse h none).1
    · cases h
  · cases h

/-- What is read at a place by a path that leads there can be taken up. -/
theorem stands_of_readAt {path : String} {s : Written.Schema}
    (hlocated : tree.canonical directory path = .ok place) (h : readAt tree place path = .ok s) :
    (Member.mk place s).path = path ∧ (Member.mk place s).Stands tree directory := by
  have hpath : (Member.mk place s).path = path := by
    simp [Member.path, document_of_readAt h]
  exact ⟨hpath, ⟨by rwa [hpath], by rwa [hpath]⟩⟩

/-- A step settles the first reference and keeps the rest. -/
theorem Following.step {next : Collection × List Pending}
    (h : Following tree directory roots c (p :: stack) log)
    (hstep : Step tree directory c p stack next) :
    ∃ log, Following tree directory roots next.1 next.2 log := by
  cases hstep with
  | unlocated failed => exact ⟨_, h.warn (.unlocated failed)⟩
  | unread located failed => exact ⟨_, h.warn (.unread located failed)⟩
  | known located found =>
    obtain ⟨hplace, hmember⟩ := mem_places_of_find? found
    exact ⟨_, h.link [] located hplace hmember⟩
  | @loaded place schema located new read =>
    obtain ⟨hpath, hstands⟩ := stands_of_readAt located read
    obtain ⟨source, hsource, htarget⟩ : ∃ m ∈ c.members, p.target ∈ targetsOf directory m := by
      obtain ⟨m, hm, ht⟩ := Collection.mem_numbered.1 (h.mem_numbered [])
      exact ⟨m, List.mem_of_getElem? hm, ht⟩
    have hled : LedTo directory roots c.members (Member.mk place schema).path :=
      .inr ⟨source, hsource, p.target, htarget, hpath.symm⟩
    have hadded := h.add hstands new hled
    rw [hpath] at hadded
    exact ⟨_, hadded.link _ located (by simp) (by simp)⟩

private theorem Following.follow (h : Following tree directory roots c stack log) :
    ∃ log, Following tree directory roots (Collection.follow tree directory c stack) [] log := by
  refine holds_follow (fun s => ∃ log, Following tree directory roots s.1 s.2 log) ?_
    ⟨log, h⟩
  rintro c p stack next hstep ⟨log, h⟩
  exact h.step hstep

/-- What taking up a root amounts to. -/
inductive RootStep (tree : FileTree) (directory : Place) (c : Collection) (path : String) :
    Except Error Collection → Prop
  | unlocated {fault : FileFault} (failed : tree.canonical directory path = .error fault) :
    RootStep tree directory c path
      (.error (.schema ("Cannot resolve schema path '" ++ path ++ "': " ++ fault.message)))
  | known {place : Place} (located : tree.canonical directory path = .ok place)
      (mem : place ∈ c.places) : RootStep tree directory c path (.ok c)
  | unread {place : Place} {e : Error} (located : tree.canonical directory path = .ok place)
      (new : c.find? place = none) (failed : readAt tree place path = .error e) :
    RootStep tree directory c path (.error e)
  | loaded {place : Place} {schema : Written.Schema}
      (located : tree.canonical directory path = .ok place) (new : c.find? place = none)
      (read : readAt tree place path = .ok schema) :
    RootStep tree directory c path (.ok (Collection.follow tree directory
      (c.add directory path ⟨place, schema⟩) (c.pendingOf directory path schema)))

theorem exists_rootStep (tree : FileTree) (directory : Place) (c : Collection) (path : String) :
    ∃ next, RootStep tree directory c path next ∧ ∀ rest,
      addRoots tree directory c (path :: rest) = next.bind (addRoots tree directory · rest) := by
  simp only [addRoots]
  split
  · exact ⟨_, .unlocated ‹_›, fun _ => rfl⟩
  · split
    · rename_i hfind
      exact ⟨_, .known ‹_› (mem_places_of_find? hfind).1, fun _ => rfl⟩
    · split
      · exact ⟨_, .unread ‹_› ‹_› ‹_›, fun _ => rfl⟩
      · exact ⟨_, .loaded ‹_› ‹_› ‹_›, fun _ => rfl⟩

/-- Roots are taken up one after the other, each with all that it leads to. -/
theorem Following.addRoots {rest : List String} {last : Collection}
    (h : Following tree directory roots c [] log) (hrest : rest ⊆ roots)
    (hlast : Collection.addRoots tree directory c rest = .ok last) :
    (∃ log, Following tree directory roots last [] log) ∧ c.places ⊆ last.places ∧
      ∀ path ∈ rest, ∃ place ∈ last.places, tree.canonical directory path = .ok place := by
  induction rest generalizing c log with
  | nil =>
    obtain rfl := Except.ok.inj hlast
    exact ⟨⟨log, h⟩, List.Subset.refl _, List.forall_mem_nil _⟩
  | cons path rest ih =>
    rw [List.cons_subset] at hrest
    obtain ⟨next, hstep, hnext⟩ := exists_rootStep tree directory c path
    rw [hnext] at hlast
    cases hstep with
    | unlocated failed => cases hlast
    | unread located new failed => cases hlast
    | @known place located mem =>
      obtain ⟨hlog, hsub, hall⟩ := ih h hrest.2 hlast
      exact ⟨hlog, hsub, List.forall_mem_cons.2 ⟨⟨place, hsub mem, located⟩, hall⟩⟩
    | @loaded place schema located new read =>
      obtain ⟨hpath, hstands⟩ := stands_of_readAt located read
      have hadded := h.add hstands new (.inl (hpath ▸ hrest.1))
      rw [hpath, List.append_nil] at hadded
      obtain ⟨log, hfollowed⟩ := hadded.follow
      obtain ⟨hlog, hsub, hall⟩ := ih hfollowed hrest.2 hlast
      have hgrown := List.Subset.trans (places_subset_follow _ _) hsub
      rw [places_add, List.append_subset] at hgrown
      exact ⟨hlog, hgrown.1,
        List.forall_mem_cons.2 ⟨⟨place, hgrown.2 (List.mem_singleton_self _), located⟩, hall⟩⟩

/-- A schema that can be read, with its targets, where each of its references leads to a path. -/
theorem exists_readAt (tree : FileTree) (directory place : Place) (path : String)
    (ts : List Target)
    (h : ((readAt tree place path).toOption.map fun s =>
      (targets (placeText directory) path s, (rejections (placeText directory) path s).length))
        = some (ts, 0)) :
    ∃ s, readAt tree place path = .ok s ∧ targets (placeText directory) path s = ts ∧
      rejections (placeText directory) path s = [] := by
  cases hread : readAt tree place path with
  | error e =>
    rw [hread] at h
    cases h
  | ok s =>
    rw [hread] at h
    obtain ⟨htargets, hrejections⟩ := Prod.mk.inj (Option.some.inj h)
    exact ⟨s, rfl, htargets, List.length_eq_zero_iff.1 hrejections⟩

/-- The links of a collection are between its members. -/
theorem links_of_ofRoots (h : ofRoots tree directory roots = .ok c) :
    ∀ l ∈ c.links, l.source < c.members.length ∧ l.target < c.members.length := by
  obtain ⟨⟨log, hlog⟩, -⟩ :=
    (following_start tree directory roots).addRoots (List.Subset.refl _) h
  exact hlog.links

/-- Only a root that is not loaded yet and cannot be read is an error. -/
theorem exists_root_of_addRoots {rest : List String} {e : Error}
    (h : Collection.addRoots tree directory c rest = .error e) :
    ∃ before path after loaded, rest = before ++ path :: after ∧
      Collection.addRoots tree directory c before = .ok loaded ∧
      ((∃ fault, tree.canonical directory path = .error fault ∧
        e = .schema ("Cannot resolve schema path '" ++ path ++ "': " ++ fault.message)) ∨
      ∃ place, tree.canonical directory path = .ok place ∧ place ∉ loaded.places ∧
        readAt tree place path = .error e) := by
  induction rest generalizing c with
  | nil => cases h
  | cons path rest ih =>
    obtain ⟨next, hstep, hnext⟩ := exists_rootStep tree directory c path
    rw [hnext] at h
    cases next with
    | ok d =>
      obtain ⟨before, root, after, loaded, rfl, hbefore, hroot⟩ := ih h
      exact ⟨path :: before, root, after, loaded, rfl, by rw [hnext]; exact hbefore, hroot⟩
    | error e' =>
      obtain rfl : e' = e := Except.error.inj h
      refine ⟨[], path, rest, c, rfl, rfl, ?_⟩
      cases hstep with
      | unlocated failed => exact .inl ⟨_, failed, rfl⟩
      | unread located new failed =>
        exact .inr ⟨_, located, not_mem_places_of_find? new, failed⟩

end Collection

end XsdCatalog
