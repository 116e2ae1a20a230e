import Mathlib.Data.List.Range
import XsdCatalog.Proofs.FollowedReferences
import XsdCatalog.Proofs.MemberOrder

/-!
# Files in preorder

References are followed with a row of those that are still to be followed. The files are loaded as a
recursion over the references would load them, which visits each new file with all that it leads to
before the next reference (`addRoots_eq_visitRoots`). The order that members are put into is worked
out a second time, from the links alone. Where nothing is redefined, it is the order of loading.
-/

namespace XsdCatalog.Collection

open FileTree (Place)

variable {tree : FileTree} {directory : Place} {c d e : Collection} {ps : List Pending}

/-- Visits the files that the references of a document lead to. A file that is not loaded yet is
taken up and visited with all that its own references lead to, then come the other references. -/
def visit (tree : FileTree) (directory : Place) (c : Collection) :
    List Pending → { d : Collection // d.unloaded tree ≤ c.unloaded tree }
  | [] => ⟨c, Nat.le_refl _⟩
  | p :: rest =>
    match tree.canonical directory p.target.path with
    | .error fault => visit tree directory (c.warnUnreadable p fault.message) rest
    | .ok place =>
      match hc : c.find? place with
      | some member => visit tree directory (c.link p member) rest
      | none =>
        match hs : readAt tree place p.target.path with
        | .error e => visit tree directory (c.warnUnreadable p e.message) rest
        | .ok schema =>
          have hlt : ((c.add directory p.target.path ⟨place, schema⟩).link p
              c.members.length).unloaded tree < c.unloaded tree := by
            rw [unloaded_link]
            exact unloaded_add_lt (mem_files_of_readAt hs) (not_mem_places_of_find? hc)
          let below := visit tree directory
            ((c.add directory p.target.path ⟨place, schema⟩).link p c.members.length)
            (c.pendingOf directory p.target.path schema)
          have hbelow : below.1.unloaded tree < c.unloaded tree := Nat.lt_of_le_of_lt below.2 hlt
          let behind := visit tree directory below.1 rest
          ⟨behind.1, Nat.le_trans behind.2 (Nat.le_of_lt hbelow)⟩
termination_by ps => (c.unloaded tree, ps.length)

/-- Visits root files one after the other. -/
def visitRoots (tree : FileTree) (directory : Place) (c : Collection) :
    List String → Except Error Collection
  | [] => .ok c
  | path :: rest =>
    match tree.canonical directory path with
    | .error fault =>
      .error (.schema ("Cannot resolve schema path '" ++ path ++ "': " ++ fault.message))
    | .ok place =>
      match c.find? place with
      | some _ => visitRoots tree directory c rest
      | none =>
        match readAt tree place path with
        | .error e => .error e
        | .ok schema =>
          visitRoots tree directory
            (visit tree directory (c.add directory path ⟨place, schema⟩)
              (c.pendingOf directory path schema)).1 rest

/-- A front of the row is followed as the recursion visits it. -/
theorem follow_append (c : Collection) (ps stack : List Pending) :
    follow tree directory c (ps ++ stack) =
      follow tree directory (visit tree directory c ps).1 stack := by
  fun_induction visit tree directory c ps generalizing stack with
  | case1 c => rfl
  | case2 c p rest fault hlocate ih =>
    rw [List.cons_append, follow_cons]
    simpa only [advance, hlocate] using ih stack
  | case3 c p rest place hlocate member hfind ih =>
    rw [List.cons_append, follow_cons]
    simpa only [advance, hlocate, hfind] using ih stack
  | case4 c p rest place hlocate hfind e hread ih =>
    rw [List.cons_append, follow_cons]
    simpa only [advance, hlocate, hfind, hread] using ih stack
  | case5 c p rest place hlocate hfind schema hread _ below _ behind ihbelow ihbehind =>
    rw [List.cons_append, follow_cons]
    simp only [advance, hlocate, hfind, hread]
    rw [ihbelow, ihbehind]

private theorem follow_eq_visit (c : Collection) (ps : List Pending) :
    follow tree directory c ps = (visit tree directory c ps).1 := by
  rw [← List.append_nil ps, follow_append, follow_nil, List.append_nil]

/-- The stack of references loads what the recursion loads, in the same order and with the same
links in the same order. -/
theorem addRoots_eq_visitRoots (c : Collection) (roots : List String) :
    addRoots tree directory c roots = visitRoots tree directory c roots := by
  fun_induction visitRoots tree directory c roots with
  | case1 c => rfl
  | case2 c path rest fault hlocate => simp only [addRoots, hlocate]
  | case3 c path rest place hlocate member hfind ih =>
    simpa only [addRoots, hlocate, hfind] using ih
  | case4 c path rest place hlocate hfind e hread => simp only [addRoots, hlocate, hfind, hread]
  | case5 c path rest place hlocate hfind schema hread ih =>
    simpa only [addRoots, hlocate, hfind, hread, follow_eq_visit] using ih

/-- A link stands for a reference of its source that leads to its target. -/
def StandsFor (tree : FileTree) (directory : Place) (members : List Member) (l : Link) : Prop :=
  ∃ m t place, members[l.source]? = some m ∧ t ∈ targetsOf directory m ∧
    t.redefines = l.redefines ∧ tree.canonical directory t.path = .ok place ∧
    (members[l.target]?).map (·.place) = some place

private theorem StandsFor.append {members : List Member} {l : Link}
    (h : StandsFor tree directory members l) (more : List Member) :
    StandsFor tree directory (members ++ more) l := by
  obtain ⟨m, t, place, hm, ht, hredefines, hlocated, hplace⟩ := h
  obtain ⟨n, hn, hnplace⟩ := Option.map_eq_some_iff.1 hplace
  refine ⟨m, t, place, ?_, ht, hredefines, hlocated, ?_⟩
  · rw [List.getElem?_append_left (List.getElem?_eq_some_iff.1 hm).1, hm]
  · rw [List.getElem?_append_left (List.getElem?_eq_some_iff.1 hn).1, hn, ← hnplace]
    rfl

private theorem place_of_find? {place : Place} {member : Nat} (h : c.find? place = some member) :
    (c.members[member]?).map (·.place) = some place := by
  obtain ⟨hlt, he, -⟩ := List.findIdx?_eq_some_iff_getElem.1 h
  rw [← List.getElem?_map]
  exact List.getElem?_eq_some_iff.2 ⟨hlt, beq_iff_eq.1 he⟩

/-- All references that are followed lead to their members by links that stand for them. -/
structure Linking (tree : FileTree) (directory : Place) (roots : List String) (c : Collection)
    (stack : List Pending) : Prop where
  following : ∃ log, Following tree directory roots c stack log
  links : ∀ l ∈ c.links, StandsFor tree directory c.members l

private theorem Linking.step {roots : List String} {p : Pending} {stack : List Pending}
    {next : Collection × List Pending} (h : Linking tree directory roots c (p :: stack))
    (hstep : Step tree directory c p stack next) :
    Linking tree directory roots next.1 next.2 := by
  obtain ⟨log, hfollowing⟩ := h.following
  refine ⟨hfollowing.step hstep, ?_⟩
  obtain ⟨m, hm, ht⟩ := mem_numbered.1 (hfollowing.mem_numbered [])
  cases hstep with
  | unlocated failed => exact h.links
  | unread located failed => exact h.links
  | @known place member located found =>
    rw [Collection.link]
    intro l hl
    rcases List.mem_append.1 hl with hl | hl
    · exact h.links l hl
    · rw [List.mem_singleton] at hl
      subst hl
      exact ⟨m, p.target, place, hm, ht, rfl, located, place_of_find? found⟩
  | @loaded place schema located new read =>
    rw [Collection.link, members_add]
    intro l hl
    rcases List.mem_append.1 hl with hl | hl
    · exact (h.links l hl).append _
    · rw [List.mem_singleton] at hl
      subst hl
      have hsource := (List.getElem?_eq_some_iff.1 hm).1
      exact ⟨m, p.target, place, (List.getElem?_append_left hsource).trans hm, ht, rfl, located,
        by simp⟩

private theorem Linking.addRoots {roots rest : List String} (h : Linking tree directory roots c [])
    (hrest : rest ⊆ roots) (hlast : Collection.addRoots tree directory c rest = .ok d) :
    Linking tree directory roots d [] := by
  induction rest generalizing c with
  | nil =>
    obtain rfl := Except.ok.inj hlast
    exact h
  | cons path rest ih =>
    rw [List.cons_subset] at hrest
    obtain ⟨next, hstep, hnext⟩ := exists_rootStep tree directory c path
    rw [hnext] at hlast
    cases hstep with
    | unlocated failed => cases hlast
    | unread located new failed => cases hlast
    | known located mem => exact ih h hrest.2 hlast
    | @loaded place schema located new read =>
      obtain ⟨log, hfollowing⟩ := h.following
      obtain ⟨hpath, hstands⟩ := stands_of_readAt located read
      have hadded := hfollowing.add hstands new (.inl (hpath ▸ hrest.1))
      rw [hpath, List.append_nil] at hadded
      have hstart : Linking tree directory roots (c.add directory path ⟨place, schema⟩)
          (c.pendingOf directory path schema) :=
        ⟨⟨log, hadded⟩, fun l hl => (h.links l hl).append _⟩
      have hrun := holds_follow (fun s => Linking tree directory roots s.1 s.2)
        (fun _ _ _ _ hstep h => h.step hstep) hstart
      exact ih hrun hrest.2 hlast

private theorem standsFor_of_mem_links {roots : List String}
    (h : ofRoots tree directory roots = .ok c) :
    ∀ l ∈ c.links, StandsFor tree directory c.members l :=
  have hstart : Linking tree directory roots {} [] :=
    ⟨⟨[], following_start tree directory roots⟩, List.forall_mem_nil _⟩
  (hstart.addRoots (List.Subset.refl _) h).links

private theorem mem_entered_congr {entered other : List Nat} (h : ∀ k, k ∈ entered ↔ k ∈ other)
    (i : Nat) : ∀ k, k ∈ i :: entered ↔ k ∈ i :: other := by
  simp [h]

/-- What was entered before counts as a set. -/
theorem arrange_congr {count : Nat} {links : List Link} {entered other : List Nat}
    (h : ∀ k, k ∈ entered ↔ k ∈ other) (tasks : List Task) :
    arrange count links entered tasks = arrange count links other tasks := by
  fun_induction arrange count links entered tasks generalizing other with
  | case1 entered => rw [arrange]
  | case2 entered i rest ih => rw [arrange, ih h]
  | case3 entered i rest hi _ ih =>
    rw [arrange, dif_pos ⟨hi.1, (h i).not.1 hi.2⟩]
    exact ih (mem_entered_congr h i)
  | case4 entered i rest hi ih =>
    rw [arrange, dif_neg ((and_congr_right' (h i).not).not.1 hi)]
    exact ih h

private theorem linked_append (links more : List Link) (redefines : Bool) (k : Nat) :
    linked (links ++ more) redefines k = linked links redefines k ++ linked more redefines k := by
  simp [linked]

private theorem linked_eq_nil {links : List Link} {k : Nat} (h : ∀ l ∈ links, l.source ≠ k)
    (redefines : Bool) : linked links redefines k = [] := by
  rw [linked, List.filter_eq_nil_iff.2, List.map_nil]
  intro l hl
  simp [h l hl]

private theorem tasks_of_plain {links : List Link} (h : ∀ l ∈ links, l.redefines = false)
    (k : Nat) : tasks links k = .place k :: (linked links false k).map .enter := by
  have hnone : linked links true k = [] := by
    rw [linked, List.filter_eq_nil_iff.2, List.map_nil]
    intro l hl
    simp [h l hl]
  rw [tasks, hnone]
  rfl

/-- Members from one to another, by way of a third. -/
theorem range'_append_range' {first middle last : Nat} (hfirst : first ≤ middle)
    (hlast : middle ≤ last) :
    List.range' first (middle - first) ++ List.range' middle (last - middle) =
      List.range' first (last - first) := by
  have hmiddle : first + (middle - first) = middle := Nat.add_sub_cancel' hfirst
  have hlength : middle - first + (last - middle) = last - first := by omega
  rw [← hlength, ← List.range'_append_1, hmiddle]

/-- Where the members before `first` are entered, to enter `doors` puts those from `first` up to
`last` into the order. This is so for all links by which these members have the links `news`, none
of them a redefinition. -/
def Fills (first last : Nat) (doors : List Nat) (news : List Link) : Prop :=
  ∀ count links rest, last ≤ count → (∀ l ∈ links, l.redefines = false) →
    (∀ k, first ≤ k → k < last → linked links false k = linked news false k) →
    arrange count links (List.range first) (doors.map .enter ++ rest) =
      List.range' first (last - first) ++ arrange count links (List.range last) rest

section Fills

variable {first middle last : Nat} {doors more : List Nat} {news : List Link}

private theorem Fills.congr (h : Fills first last doors news) (other : List Link)
    (hlinked : ∀ k, first ≤ k → k < last → linked news false k = linked other false k) :
    Fills first last doors other := by
  intro count links rest hcount hplain hother
  apply h count links rest hcount hplain
  intro k hfirst hlast
  rw [hother k hfirst hlast, hlinked k hfirst hlast]

private theorem Fills.append (hfront : Fills first middle doors news)
    (hback : Fills middle last more news) (hfirst : first ≤ middle) (hlast : middle ≤ last) :
    Fills first last (doors ++ more) news := by
  intro count links rest hcount hplain hlinked
  rw [List.map_append, List.append_assoc,
    hfront count links _ (Nat.le_trans hlast hcount) hplain
      fun k hk hlt => hlinked k hk (Nat.lt_of_lt_of_le hlt hlast),
    hback count links rest hcount hplain fun k hk hlt => hlinked k (Nat.le_trans hfirst hk) hlt,
    ← List.append_assoc, range'_append_range' hfirst hlast]

/-- Members that are entered already are passed over. -/
theorem fills_of_entered (doors : List Nat) (h : ∀ j ∈ doors, j < first) :
    Fills first first doors news := by
  intro count links rest _ _ _
  rw [Nat.sub_self, List.range'_zero, List.nil_append]
  induction doors with
  | nil => rfl
  | cons j doors ih =>
    rw [List.forall_mem_cons] at h
    rw [List.map_cons, List.cons_append, arrange, dif_neg (by simp [h.1])]
    exact ih h.2

/-- The next member is put into the order, then all that it refers to. -/
theorem Fills.enter (h : Fills (first + 1) last (linked news false first) news)
    (hlt : first < last) : Fills first last [first] news := by
  intro count links rest hcount hplain hlinked
  have hset : ∀ k, k ∈ first :: List.range first ↔ k ∈ List.range (first + 1) := by
    intro k
    rw [List.mem_cons, List.mem_range, List.mem_range]
    omega
  have hlength : last - first = (last - (first + 1)) + 1 := by omega
  rw [List.map_singleton, List.singleton_append, arrange,
    dif_pos ⟨Nat.lt_of_lt_of_le hlt hcount, by simp⟩, tasks_of_plain hplain, List.cons_append,
    arrange, arrange_congr hset, hlinked first (Nat.le_refl _) hlt,
    h count links rest hcount hplain fun k hk hklt => hlinked k (Nat.le_of_succ_le hk) hklt,
    hlength, List.range'_succ]
  rfl

end Fills

/-- What the visit of the references of member `m` adds to a collection: links `news` from `m` and
from the members that are loaded, and these stand in the order as they are loaded. -/
structure Visited (m : Nat) (c d : Collection) (news : List Link) : Prop where
  links : d.links = c.links ++ news
  grows : c.members.length ≤ d.members.length
  sources : ∀ l ∈ news, l.source = m ∨ (c.members.length ≤ l.source ∧ l.source < d.members.length)
  fills : (∀ l ∈ news, l.redefines = false) →
    Fills c.members.length d.members.length (linked news false m) news

private theorem visited_refl (m : Nat) (c : Collection) : Visited m c c [] where
  links := (List.append_nil _).symm
  grows := Nat.le_refl _
  sources := List.forall_mem_nil _
  fills _ := fills_of_entered [] (List.forall_mem_nil _)

/-- A warning changes neither the members nor the links. -/
theorem Visited.of_warn {m member : Nat} {ds : List Diagnostic} {news : List Link}
    (h : Visited m (c.warn member ds) d news) : Visited m c d news where
  links := h.links
  grows := h.grows
  sources := h.sources
  fills := h.fills

private theorem linked_cons_of_ne {l : Link} {k : Nat} (h : l.source ≠ k) (links : List Link)
    (redefines : Bool) : linked (l :: links) redefines k = linked links redefines k := by
  simp [linked, h]

private theorem linked_cons_self (l : Link) (links : List Link) (h : l.redefines = false) :
    linked (l :: links) false l.source = l.target :: linked links false l.source := by
  simp [linked, h]

/-- A reference to a member that is loaded already is only a link. -/
theorem Visited.link {p : Pending} {member : Nat} {news : List Link}
    (h : Visited p.source (c.link p member) d news) (hmember : member < c.members.length)
    (hsource : p.source < c.members.length) :
    Visited p.source c d (⟨p.source, member, p.target.redefines⟩ :: news) where
  links := by
    rw [h.links, Collection.link, List.append_assoc]
    rfl
  grows := h.grows
  sources := List.forall_mem_cons.2 ⟨.inl rfl, h.sources⟩
  fills := by
    intro hplain
    rw [List.forall_mem_cons] at hplain
    rw [linked_cons_self _ _ hplain.1]
    have hrest := (h.fills hplain.2).congr (⟨p.source, member, p.target.redefines⟩ :: news)
      (by
        intro k hk _
        exact (linked_cons_of_ne (Nat.ne_of_lt (Nat.lt_of_lt_of_le hsource hk)) _ _).symm)
    exact (fills_of_entered [member] (by simpa using hmember)).append hrest
      (Nat.le_refl _) h.grows

/-- A file that is loaded stands before all that it leads to. -/
theorem Visited.fills_loaded {news : List Link} (h : Visited c.members.length d e news)
    (hadded : d.members.length = c.members.length + 1) (hplain : ∀ l ∈ news, l.redefines = false) :
    Fills c.members.length e.members.length [c.members.length] news := by
  have hbelow := h.fills hplain
  have hgrows := h.grows
  rw [hadded] at hbelow hgrows
  exact hbelow.enter hgrows

/-- A reference to a file that is loaded now adds a link, then what the references of the file add,
then what the other references add. -/
theorem Visited.load {p : Pending} {path : String} {m : Member} {news more : List Link}
    (hbelow : Visited c.members.length ((c.add directory path m).link p c.members.length) d news)
    (hbehind : Visited p.source d e more) (hsource : p.source < c.members.length) :
    Visited p.source c e
      (⟨p.source, c.members.length, p.target.redefines⟩ :: (news ++ more)) := by
  have hadded : ((c.add directory path m).link p c.members.length).members.length =
      c.members.length + 1 := List.length_append
  have hgrows : c.members.length < d.members.length := by
    have hle := hbelow.grows
    omega
  -- the links of the new members are from the new file or from behind it
  have hnews : ∀ l ∈ news, c.members.length ≤ l.source ∧ l.source < d.members.length := by
    intro l hl
    have hl := hbelow.sources l hl
    omega
  refine ⟨?_, ?_, ?_, ?_⟩
  · rw [hbehind.links, hbelow.links]
    simp [Collection.link, Collection.add, warn]
  · exact Nat.le_trans (Nat.le_of_lt hgrows) hbehind.grows
  · intro l hl
    have hlast := hbehind.grows
    rcases List.mem_cons.1 hl with rfl | hl
    · exact .inl rfl
    · rcases List.mem_append.1 hl with hl | hl
      · have hl := hnews l hl
        omega
      · have hl := hbehind.sources l hl
        omega
  · intro hplain
    rw [List.forall_mem_cons, List.forall_mem_append] at hplain
    obtain ⟨hlink, hplain, hplain'⟩ := hplain
    have hown : linked news false p.source = [] :=
      linked_eq_nil (fun l hl => by have hl := hnews l hl; omega) false
    rw [linked_cons_self _ _ hlink, linked_append, hown, List.nil_append]
    have hfront := (hbelow.fills_loaded hadded hplain).congr
      (⟨p.source, c.members.length, p.target.redefines⟩ :: (news ++ more)) (by
        intro k hk hlt
        have hlater : linked more false k = [] :=
          linked_eq_nil (fun l hl => by have hl := hbehind.sources l hl; omega) false
        rw [linked_cons_of_ne (Nat.ne_of_lt (Nat.lt_of_lt_of_le hsource hk)), linked_append,
          hlater, List.append_nil])
    have hback := (hbehind.fills hplain').congr
      (⟨p.source, c.members.length, p.target.redefines⟩ :: (news ++ more)) (by
        intro k hk hlt
        have hearlier : linked news false k = [] :=
          linked_eq_nil (fun l hl => by have hl := hnews l hl; omega) false
        have hne : p.source ≠ k := by omega
        rw [linked_cons_of_ne hne, linked_append, hearlier, List.nil_append])
    exact hfront.append hback (Nat.le_of_lt hgrows) hbehind.grows

private theorem source_of_mem_pendingOf {path : String} {schema : Written.Schema} (c : Collection) :
    ∀ p ∈ c.pendingOf directory path schema, p.source = c.members.length := by
  simp [pendingOf]

/-- Each visit of references adds its links in preorder. -/
theorem exists_visited (tree : FileTree) {m : Nat} (hsources : ∀ p ∈ ps, p.source = m)
    (hm : m < c.members.length) :
    ∃ news, Visited m c (visit tree directory c ps).1 news := by
  fun_induction visit tree directory c ps generalizing m with
  | case1 c => exact ⟨[], visited_refl m c⟩
  | case2 c p rest fault hlocate ih =>
    rw [List.forall_mem_cons] at hsources
    obtain ⟨news, hnews⟩ := ih hsources.2 hm
    exact ⟨news, hnews.of_warn⟩
  | case3 c p rest place hlocate member hfind ih =>
    rw [List.forall_mem_cons] at hsources
    obtain ⟨rfl, hsources⟩ := hsources
    obtain ⟨news, hnews⟩ := ih hsources hm
    exact ⟨_, hnews.link (mem_places_of_find? hfind).2 hm⟩
  | case4 c p rest place hlocate hfind e hread ih =>
    rw [List.forall_mem_cons] at hsources
    obtain ⟨news, hnews⟩ := ih hsources.2 hm
    exact ⟨news, hnews.of_warn⟩
  | case5 c p rest place hlocate hfind schema hread _ below _ behind ihbelow ihbehind =>
    rw [List.forall_mem_cons] at hsources
    obtain ⟨rfl, hsources⟩ := hsources
    have hadded : c.members.length < ((c.add directory p.target.path ⟨place, schema⟩).link p
        c.members.length).members.length := by
      simp [Collection.link]
    obtain ⟨news, hnews⟩ := ihbelow (source_of_mem_pendingOf c) hadded
    obtain ⟨more, hmore⟩ := ihbehind hsources
      (Nat.lt_of_lt_of_le hm (Nat.le_trans (Nat.le_of_lt hadded) hnews.grows))
    exact ⟨_, hnews.load hmore hm⟩

/-- What the visit of root files adds to a collection. -/
structure VisitedRoots (c d : Collection) (news : List Link) : Prop where
  links : d.links = c.links ++ news
  grows : c.members.length ≤ d.members.length
  sources : ∀ l ∈ news, c.members.length ≤ l.source ∧ l.source < d.members.length
  fills : (∀ l ∈ news, l.redefines = false) → Fills c.members.length d.members.length
    (List.range' c.members.length (d.members.length - c.members.length)) news

/-- A root file that is loaded now adds what its references add, then come the other roots. -/
theorem VisitedRoots.load {path : String} {m : Member} {news more : List Link}
    (hbelow : Visited c.members.length (c.add directory path m) d news)
    (hbehind : VisitedRoots d e more) : VisitedRoots c e (news ++ more) := by
  have hadded : (c.add directory path m).members.length = c.members.length + 1 :=
    List.length_append
  have hfirst := hbelow.grows
  have hlast := hbehind.grows
  have hnews : ∀ l ∈ news, c.members.length ≤ l.source ∧ l.source < d.members.length := by
    intro l hl
    have hl := hbelow.sources l hl
    omega
  refine ⟨?_, by omega, ?_, ?_⟩
  · rw [hbehind.links, hbelow.links, List.append_assoc]
    rfl
  · intro l hl
    rcases List.mem_append.1 hl with hl | hl
    · have hl := hnews l hl
      omega
    · have hl := hbehind.sources l hl
      omega
  · intro hplain
    rw [List.forall_mem_append] at hplain
    have hroot := (hbelow.fills_loaded hadded hplain.1).append
      (fills_of_entered (List.range' (c.members.length + 1)
        (d.members.length - (c.members.length + 1))) (by
          intro j hj
          rw [List.mem_range'_1] at hj
          omega)) (by omega) (Nat.le_refl _)
    have hdoors := range'_append_range' (Nat.le_add_right c.members.length 1) (hadded ▸ hfirst)
    rw [Nat.add_sub_cancel_left, List.range'_one] at hdoors
    rw [hdoors] at hroot
    have hfront := hroot.congr (news ++ more) (by
      intro k _ hk
      have hlater : linked more false k = [] :=
        linked_eq_nil (fun l hl => by have hl := hbehind.sources l hl; omega) false
      rw [linked_append, hlater, List.append_nil])
    have hback := (hbehind.fills hplain.2).congr (news ++ more) (by
      intro k hk _
      have hearlier : linked news false k = [] :=
        linked_eq_nil (fun l hl => by have hl := hnews l hl; omega) false
      rw [linked_append, hearlier, List.nil_append])
    rw [← range'_append_range' (by omega) hlast]
    exact hfront.append hback (by omega) hlast

private theorem exists_visitedRoots {roots : List String}
    (h : visitRoots tree directory c roots = .ok d) : ∃ news, VisitedRoots c d news := by
  fun_induction visitRoots tree directory c roots with
  | case1 c =>
    cases h
    exact ⟨[], (List.append_nil _).symm, Nat.le_refl _, List.forall_mem_nil _,
      fun _ => fills_of_entered _ (by simp)⟩
  | case2 c path rest fault hlocate => cases h
  | case3 c path rest place hlocate member hfind ih => exact ih h
  | case4 c path rest place hlocate hfind e hread => cases h
  | case5 c path rest place hlocate hfind schema hread ih =>
    obtain ⟨more, hmore⟩ := ih h
    have hadded : c.members.length <
        (c.add directory path ⟨place, schema⟩).members.length := by simp
    obtain ⟨news, hnews⟩ := exists_visited tree (source_of_mem_pendingOf c) hadded
    exact ⟨_, .load hnews hmore⟩

/-- Where nothing is redefined, the members stand in the order in which they were loaded. -/
theorem order_eq_range {roots : List String} (h : ofRoots tree directory roots = .ok c)
    (hplain : ∀ l ∈ c.links, l.redefines = false) :
    order c.members.length c.links = List.range c.members.length := by
  rw [ofRoots, addRoots_eq_visitRoots] at h
  obtain ⟨news, hnews⟩ := exists_visitedRoots h
  obtain rfl : c.links = news := hnews.links
  have hfills := hnews.fills hplain c.members.length c.links [] (Nat.le_refl _) hplain
    fun _ _ _ => rfl
  have hstart : (({} : Collection).members.length) = 0 := rfl
  rw [hstart, arrange, List.append_nil, List.append_nil, Nat.sub_zero,
    ← List.range_eq_range'] at hfills
  exact hfills

/-- The files that accepted roots lead to are those that the recursion over references loads, in the
order and with the links, in their order, that it has. Each link stands for a reference. If none of
them is a redefinition, the schemas come in the order of loading. -/
theorem ofRoots_depth_first {roots : List String} (h : ofRoots tree directory roots = .ok c) :
    visitRoots tree directory {} roots = .ok c ∧
    (∀ l ∈ c.links, StandsFor tree directory c.members l) ∧
    ((∀ l ∈ c.links, l.redefines = false) →
      order c.members.length c.links = List.range c.members.length ∧
        ∀ i, c.schemas[i]? = c.schemaOf i) := by
  refine ⟨by rw [← addRoots_eq_visitRoots]; exact h, standsFor_of_mem_links h, fun hplain => ?_⟩
  have horder := order_eq_range h hplain
  refine ⟨horder, fun i => ?_⟩
  rw [schemas, horder, getElem?_filterMap_of_isSome]
  · by_cases hi : i < c.members.length
    · simp [hi]
    · simp [hi, schemaOf]
  · intro k hk
    simp [schemaOf, List.mem_range.1 hk]

/-- A document that includes another one. -/
def includingDocument (location : String) : String :=
  "<schema xmlns=\"http://www.w3.org/2001/XMLSchema\">" ++
    "<include schemaLocation=\"" ++ location ++ "\"/></schema>"

/-- Two documents that include each other. -/
def circularTree : FileTree where
  files := [(["a.xsd"], Text.toBytes (includingDocument "b.xsd")),
    (["b.xsd"], Text.toBytes (includingDocument "a.xsd"))]

private theorem ofRoots_circle (tree : FileTree) {a b : Written.Schema}
    (haplace : tree.canonical [] "a.xsd" = .ok ["a.xsd"])
    (hbplace : tree.canonical [] "b.xsd" = .ok ["b.xsd"])
    (ha : readAt tree ["a.xsd"] "a.xsd" = .ok a) (hb : readAt tree ["b.xsd"] "b.xsd" = .ok b)
    (hatargets : targets (FileTree.placeText []) "a.xsd" a = [⟨"b.xsd", false⟩])
    (hbtargets : targets (FileTree.placeText []) "b.xsd" b = [⟨"a.xsd", false⟩])
    (harejections : rejections (FileTree.placeText []) "a.xsd" a = [])
    (hbrejections : rejections (FileTree.placeText []) "b.xsd" b = []) :
    ofRoots tree [] ["a.xsd", "b.xsd"] =
      .ok {
        members := [⟨["a.xsd"], a⟩, ⟨["b.xsd"], b⟩]
        links := [⟨0, 1, false⟩, ⟨1, 0, false⟩] } := by
  simp [ofRoots, addRoots, follow_cons, advance, haplace, hbplace, ha, hb, find?, places,
    Collection.add, warn, Collection.link, pendingOf, hatargets, hbtargets, harejections,
    hbrejections, List.findIdx?_cons]

/-- The second document is loaded from the first one, where the circle ends, and not as a root. -/
theorem ofRoots_circularTree : ∃ c, ofRoots circularTree [] ["a.xsd", "b.xsd"] = .ok c ∧
    visitRoots circularTree [] {} ["a.xsd", "b.xsd"] = .ok c ∧
    c.places = [["a.xsd"], ["b.xsd"]] ∧ c.links = [⟨0, 1, false⟩, ⟨1, 0, false⟩] ∧
    (∀ l ∈ c.links, StandsFor circularTree [] c.members l) ∧
    order c.members.length c.links = [0, 1] ∧ ∀ i, c.schemas[i]? = c.schemaOf i := by
  obtain ⟨a, ha, hatargets, harejections⟩ :=
    exists_readAt circularTree [] ["a.xsd"] "a.xsd" [⟨"b.xsd", false⟩] (by decide +kernel)
  obtain ⟨b, hb, hbtargets, hbrejections⟩ :=
    exists_readAt circularTree [] ["b.xsd"] "b.xsd" [⟨"a.xsd", false⟩] (by decide +kernel)
  have hroots := ofRoots_circle circularTree (by decide) (by decide) ha hb hatargets
    hbtargets harejections hbrejections
  obtain ⟨hvisit, hstands, horder⟩ := ofRoots_depth_first hroots
  obtain ⟨horder, hschemas⟩ := horder (by simp)
  exact ⟨_, hroots, hvisit, rfl, rfl, hstands, horder, hschemas⟩

end XsdCatalog.Collection
