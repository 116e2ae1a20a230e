import Mathlib.Data.List.Basic
import XsdCatalog.Collection.Target

/-!
# Locations seen from files

A relative location is spelled behind the directory of the path that its document was read by.
Whatever this path is, it leads to where the location leads from the directory of the file
(`locate_join_baseOf`). So the place that a location names depends on the file that it stands in
only (`placeNamed_of_locate`).
-/

namespace XsdCatalog

namespace Path

/-- A part that stays where it is. -/
def IsIdle (part : String) : Prop :=
  part = "" ∨ part = "."
deriving Decidable

private theorem partsFrom_ne_nil (part cs : List Char) : partsFrom part cs ≠ [] := by
  cases cs with
  | nil => simp [partsFrom]
  | cons c cs => by_cases hc : c = '/' <;> simp [partsFrom, hc, partsFrom_ne_nil]

private theorem partsFrom_append_slash (part cs ds : List Char) :
    partsFrom part (cs ++ '/' :: ds) = partsFrom part cs ++ partsFrom [] ds := by
  induction cs generalizing part with
  | nil => simp [partsFrom]
  | cons c cs ih => by_cases hc : c = '/' <;> simp [partsFrom, hc, ih]

private theorem partsFrom_of_notMem {cs : List Char} (h : '/' ∉ cs) (part : List Char) :
    partsFrom part cs = [String.ofList (part.reverse ++ cs)] := by
  induction cs generalizing part with
  | nil => simp [partsFrom]
  | cons c cs ih =>
    rw [List.mem_cons, not_or] at h
    simp [partsFrom, Ne.symm h.1, ih h.2]

private theorem notMem_of_mem_partsFrom {part cs : List Char} {p : String} (hpart : '/' ∉ part)
    (h : p ∈ partsFrom part cs) : '/' ∉ p.toList := by
  induction cs generalizing part with
  | nil => simp_all [partsFrom]
  | cons c cs ih =>
    by_cases hc : c = '/'
    · simp only [partsFrom, hc, if_true, List.mem_cons] at h
      obtain rfl | h := h
      · simpa using hpart
      · exact ih List.not_mem_nil h
    · simp only [partsFrom, hc, if_false] at h
      exact ih (by simp [hpart, Ne.symm hc]) h

private theorem intercalate_partsFrom (part cs : List Char) :
    "/".intercalate (partsFrom part cs) = String.ofList (part.reverse ++ cs) := by
  induction cs generalizing part with
  | nil => simp [partsFrom, String.intercalate_singleton]
  | cons c cs ih =>
    by_cases hc : c = '/'
    · obtain ⟨p, ps, hp⟩ := List.exists_cons_of_ne_nil (partsFrom_ne_nil [] cs)
      have ih := ih []
      simp only [partsFrom, hc, if_true, hp, String.intercalate_cons_cons] at ih ⊢
      rw [ih]
      simp [← String.toList_inj]
    · simp [partsFrom, hc, ih]

private theorem parts_ne_nil (path : String) : parts path ≠ [] :=
  partsFrom_ne_nil _ _

theorem parts_append_slash (a b : String) : parts (a ++ "/" ++ b) = parts a ++ parts b := by
  simp [parts, partsFrom_append_slash]

private theorem parts_of_notMem {part : String} (h : '/' ∉ part.toList) : parts part = [part] := by
  simp [parts, partsFrom_of_notMem h]

private theorem notMem_of_mem_parts {path part : String} (h : part ∈ parts path) :
    '/' ∉ part.toList :=
  notMem_of_mem_partsFrom List.not_mem_nil h

private theorem intercalate_parts (path : String) : "/".intercalate (parts path) = path := by
  simp [parts, intercalate_partsFrom]

private theorem intercalate_append {ps qs : List String} (hps : ps ≠ []) (hqs : qs ≠ []) :
    "/".intercalate (ps ++ qs) = "/".intercalate ps ++ "/" ++ "/".intercalate qs := by
  induction ps with
  | nil => exact absurd rfl hps
  | cons p ps ih =>
    obtain ⟨q, qs, rfl⟩ := List.exists_cons_of_ne_nil hqs
    cases ps with
    | nil => simp [String.intercalate_cons_cons, String.intercalate_singleton]
    | cons p' ps =>
      have ih := ih (List.cons_ne_nil _ _)
      simp only [List.cons_append, String.intercalate_cons_cons] at ih ⊢
      rw [ih]
      simp only [String.append_assoc]

private theorem parts_intercalate {ps : List String} (hps : ps ≠ [])
    (h : ∀ p ∈ ps, '/' ∉ p.toList) : parts ("/".intercalate ps) = ps := by
  induction ps with
  | nil => exact absurd rfl hps
  | cons p ps ih =>
    rw [List.forall_mem_cons] at h
    cases ps with
    | nil => rw [String.intercalate_singleton, parts_of_notMem h.1]
    | cons q ps =>
      rw [String.intercalate_cons_cons, parts_append_slash, parts_of_notMem h.1,
        ih (List.cons_ne_nil _ _) h.2]
      rfl

/-- What is dropped from the end of a path is idle. -/
theorem exists_eq_append_dropIdle (absolute : Bool) (ps : List String) :
    ∃ idle, ps = idle ++ dropIdle absolute ps ∧ ∀ part ∈ idle, IsIdle part := by
  induction ps with
  | nil => exact ⟨[], rfl, List.forall_mem_nil _⟩
  | cons p ps ih =>
    cases ps with
    | nil =>
      unfold dropIdle
      split
      · rename_i h
        refine ⟨[p], rfl, ?_⟩
        simp only [Bool.or_eq_true, decide_eq_true_eq, Bool.and_eq_true] at h
        simpa [IsIdle] using h.imp_right And.right
      · exact ⟨[], rfl, List.forall_mem_nil _⟩
    | cons q ps =>
      unfold dropIdle
      split
      · rename_i h
        obtain ⟨idle, he, hidle⟩ := ih
        refine ⟨p :: idle, by rw [List.cons_append, ← he], List.forall_mem_cons.2 ⟨?_, hidle⟩⟩
        simpa [IsIdle] using h
      · exact ⟨[], rfl, List.forall_mem_nil _⟩

private theorem dropIdle_cons_of_not_isIdle {absolute : Bool} {part : String} (ps : List String)
    (h : ¬ IsIdle part) : dropIdle absolute (part :: ps) = part :: ps := by
  rw [IsIdle, not_or] at h
  cases ps <;> simp [dropIdle, h.1, h.2]

private theorem exists_parts_of_isAbsolute {path : String} (h : isAbsolute path = true) :
    ∃ rest, parts path = "" :: rest := by
  obtain ⟨c, cs, hcs⟩ : ∃ c cs, path.toList = c :: cs := by
    cases hp : path.toList with
    | nil => simp [isAbsolute, hp] at h
    | cons c cs => exact ⟨c, cs, rfl⟩
  obtain rfl : c = '/' := by simpa [isAbsolute, hcs] using h
  exact ⟨partsFrom [] cs, by simp [parts, hcs, partsFrom]⟩

/-- The directory of a path that ends in a name is the path up to the last part that is not idle,
if there is one. -/
theorem parent?_of_parts {path name : String} {ps : List String}
    (hparts : parts path = ps ++ [name]) (hname : ¬ IsIdle name) :
    ((∀ part ∈ ps, IsIdle part) ∧ parent? path = some (if isAbsolute path then "/" else "")) ∨
    ∃ kept idle, ps = kept ++ idle ∧ (∀ part ∈ idle, IsIdle part) ∧ "/".intercalate kept ≠ "" ∧
      parent? path = some ("/".intercalate kept) := by
  have hkept (absolute : Bool) (ps : List String) :
      ∃ idle, ps = (dropIdle absolute ps.reverse).reverse ++ idle ∧
        ∀ part ∈ idle, IsIdle part := by
    obtain ⟨idle, he, hidle⟩ := exists_eq_append_dropIdle absolute ps.reverse
    refine ⟨idle.reverse, ?_, by simpa using hidle⟩
    rw [← List.reverse_append, ← he, List.reverse_reverse]
  cases habsolute : isAbsolute path with
  | false =>
    obtain ⟨idle, he, hidle⟩ := hkept false ps
    have hparent : parent? path
        = some ("/".intercalate (dropIdle false ps.reverse).reverse) := by
      simp [parent?, habsolute, hparts, dropIdle_cons_of_not_isIdle _ hname]
    generalize (dropIdle false ps.reverse).reverse = kept at he hparent
    by_cases hne : kept = []
    · subst hne he
      exact .inl ⟨hidle, hparent⟩
    · refine .inr ⟨kept, idle, he, hidle, fun hempty => ?_, hparent⟩
      have hspelled : path = "/".intercalate kept ++ "/" ++ "/".intercalate (idle ++ [name]) := by
        rw [← intercalate_append hne (by simp), ← List.append_assoc, ← he, ← hparts,
          intercalate_parts]
      rw [hspelled, hempty] at habsolute
      simp [isAbsolute] at habsolute
  | true =>
    obtain ⟨rest, hrest⟩ := exists_parts_of_isAbsolute habsolute
    rw [hrest] at hparts
    cases ps with
    | nil =>
      simp only [List.nil_append, List.cons.injEq] at hparts
      exact absurd (.inl hparts.1.symm) hname
    | cons p ps =>
      obtain ⟨rfl, hps⟩ := List.cons.inj hparts
      obtain ⟨idle, he, hidle⟩ := hkept true ps
      have hparent : parent? path
          = some ("/" ++ "/".intercalate (dropIdle true ps.reverse).reverse) := by
        simp [parent?, habsolute, hrest, hps, dropIdle_cons_of_not_isIdle _ hname]
      generalize (dropIdle true ps.reverse).reverse = kept at he hparent
      by_cases hne : kept = []
      · subst hne he
        exact .inl ⟨List.forall_mem_cons.2 ⟨.inl rfl, hidle⟩, hparent⟩
      · have hspelled : "/".intercalate ("" :: kept) = "/" ++ "/".intercalate kept :=
          intercalate_append (List.cons_ne_nil "" []) hne
        refine .inr ⟨"" :: kept, idle, by rw [he, List.cons_append], hidle, ?_, ?_⟩
        · simp [hspelled, ← String.toList_inj]
        · rw [hspelled, hparent]

private theorem join_empty (path : String) : join "" path = path := by
  simp [join]

private theorem exists_toList_join (base : String) {path : String}
    (hrelative : isAbsolute path = false) :
    ∃ separator, (join base path).toList = base.toList ++ separator ++ path.toList ∧
      ∀ c ∈ separator, c = '/' := by
  rw [join, if_neg (by simp [hrelative])]
  split
  · exact ⟨[], by simp, List.forall_mem_nil _⟩
  · exact ⟨['/'], by simp, by simp⟩

theorem isAbsolute_eq_of_front {a b : String} (h : a.toList <+: b.toList) (ha : a ≠ "") :
    isAbsolute a = isAbsolute b := by
  obtain ⟨rest, hrest⟩ := h
  cases hl : a.toList with
  | nil => exact absurd (String.toList_eq_nil_iff.1 hl) ha
  | cons c cs => simp [isAbsolute, ← hrest, hl]

/-- The directory of a name behind a relative path that ends in no idle part is that path. -/
theorem parent?_append_slash {base last name : String} {ps : List String}
    (hrelative : isAbsolute base = false) (hparts : parts base = ps ++ [last])
    (hlast : ¬ IsIdle last) (hname : ¬ IsIdle name) (hslash : '/' ∉ name.toList) :
    parent? (base ++ "/" ++ name) = some base := by
  have hbase : base ≠ "" := by
    rintro rfl
    have hmem : last ∈ parts "" := by simp [hparts]
    exact hlast (.inl (List.mem_singleton.1 hmem))
  have habsolute : isAbsolute (base ++ "/" ++ name) = false := by
    rw [← hrelative]
    exact (isAbsolute_eq_of_front ⟨_, by rw [String.append_assoc, String.toList_append]⟩ hbase).symm
  have hspelled : "/".intercalate (ps ++ [last]) = base := by rw [← hparts, intercalate_parts]
  simp [parent?, habsolute, parts_append_slash, hparts, parts_of_notMem hslash,
    dropIdle_cons_of_not_isIdle _ hname, dropIdle_cons_of_not_isIdle _ hlast, hspelled]

end Path

namespace FileTree

open XsdCatalog.Path (IsIdle)

variable {tree : FileTree} {start place : Place}

/-- No file stands at a place or on the way to it, so that it can be a directory. -/
def IsWay (tree : FileTree) (place : Place) : Prop :=
  ∀ above, above <+: place → tree.file? above = none

private theorem IsWay.above {above : Place} (h : tree.IsWay place) (ha : above <+: place) :
    tree.IsWay above :=
  fun higher hh => h higher (hh.trans ha)

private theorem follow_append (tree : FileTree) (start : Place) (ps qs : List String) :
    tree.follow start (ps ++ qs) = (tree.follow start ps).bind (tree.follow · qs) := by
  induction ps generalizing start with
  | nil => rfl
  | cons p ps ih =>
    simp only [List.cons_append, follow]
    split_ifs <;> first | rfl | exact ih _

private theorem exists_of_follow_append {ps qs : List String}
    (h : tree.follow start (ps ++ qs) = .ok place) :
    ∃ middle, tree.follow start ps = .ok middle ∧ tree.follow middle qs = .ok place := by
  rw [follow_append] at h
  cases hp : tree.follow start ps with
  | error fault => simp [hp, Except.bind] at h
  | ok middle => exact ⟨middle, rfl, by simpa [hp, Except.bind] using h⟩

private theorem file?_eq_none_of_follow_cons {part : String} {ps : List String}
    (h : tree.follow start (part :: ps) = .ok place) : tree.file? start = none := by
  by_contra hfile
  rw [follow, if_pos (Option.isSome_iff_ne_none.2 hfile)] at h
  cases h

/-- A part leads to the directory above, to the same place, or down to a name. -/
theorem follow_cons_cases {part : String} {ps : List String}
    (h : tree.follow start (part :: ps) = .ok place) :
    (IsIdle part ∧ tree.follow start ps = .ok place) ∨
    (part = ".." ∧ tree.follow start.dropLast ps = .ok place) ∨
    (¬ IsIdle part ∧ tree.follow (start ++ [part]) ps = .ok place) := by
  have hfile := file?_eq_none_of_follow_cons h
  rw [follow, if_neg (by simp [hfile])] at h
  dsimp only at h
  split_ifs at h with hidle hup
  · exact .inl ⟨hidle, h⟩
  · exact .inr (.inl ⟨hup, h⟩)
  · exact .inr (.inr ⟨hidle, h⟩)

private theorem eq_of_follow_idle {idle : List String} (hidle : ∀ part ∈ idle, IsIdle part)
    (h : tree.follow start idle = .ok place) : place = start := by
  induction idle with
  | nil => exact (Except.ok.inj h).symm
  | cons part idle ih =>
    rw [List.forall_mem_cons] at hidle
    obtain ⟨-, h⟩ | ⟨rfl, -⟩ | ⟨hname, -⟩ := follow_cons_cases h
    · exact ih hidle.2 h
    · exact absurd hidle.1 (by decide)
    · exact absurd hidle.1 hname

/-- From a directory, parts lead to a directory or to a file. -/
theorem isWay_of_follow {ps : List String} (h : tree.follow start ps = .ok place)
    (hstart : ∀ above, above <+: start → above ≠ start → tree.file? above = none)
    (hfile : tree.file? place = none) : tree.IsWay place := by
  induction ps generalizing start with
  | nil =>
    obtain rfl := Except.ok.inj h
    intro above ha
    by_cases he : above = start
    · rw [he, hfile]
    · exact hstart above ha he
  | cons part ps ih =>
    have hway : tree.IsWay start := by
      intro above ha
      by_cases he : above = start
      · rw [he, file?_eq_none_of_follow_cons h]
      · exact hstart above ha he
    obtain ⟨-, h⟩ | ⟨-, h⟩ | ⟨-, h⟩ := follow_cons_cases h
    · exact ih h hstart
    · exact ih h fun above ha _ => hway above (ha.trans (List.dropLast_prefix _))
    · refine ih h fun above ha he => ?_
      exact hway above ((List.prefix_concat_iff.1 ha).resolve_left he)

/-- A file is reached by a name, from the directory that it stands in. -/
theorem exists_name_of_follow {ps : List String} (hps : ps ≠ [])
    (h : tree.follow start ps = .ok place) (hstart : tree.IsWay start)
    (hfile : (tree.file? place).isSome) :
    ∃ before name, ps = before ++ [name] ∧ ¬ IsIdle name ∧
      tree.follow start before = .ok place.dropLast := by
  obtain ⟨before, name, rfl⟩ := (List.eq_nil_or_concat' ps).resolve_left hps
  obtain ⟨middle, hbefore, hname⟩ := exists_of_follow_append h
  have hmiddle := file?_eq_none_of_follow_cons hname
  have hway := isWay_of_follow hbefore (fun above ha _ => hstart above ha) hmiddle
  refine ⟨before, name, rfl, ?_⟩
  obtain ⟨-, he⟩ | ⟨-, he⟩ | ⟨hidle, he⟩ := follow_cons_cases hname
  · simp [← Except.ok.inj he, hmiddle] at hfile
  · rw [← Except.ok.inj he, hway _ (List.dropLast_prefix _)] at hfile
    cases hfile
  · rw [← Except.ok.inj he, List.dropLast_concat]
    exact ⟨hidle, hbefore⟩

private theorem hasZero_of_front {a b : String} (h : a.toList <+: b.toList)
    (hb : hasZero b = false) : hasZero a = false := by
  simp only [hasZero, List.contains_eq_mem, decide_eq_false_iff_not] at hb ⊢
  exact fun hm => hb (h.subset hm)

private theorem locate_eq_ok_iff {directory : Place} {path : String} :
    tree.locate directory path = .ok place ↔ path ≠ "" ∧ hasZero path = false ∧
      tree.follow (if Path.isAbsolute path then [] else directory) (Path.parts path)
        = .ok place := by
  rw [locate]
  split_ifs <;> simp_all

/-- The directory of the path of a file leads to the directory that the file stands in. -/
theorem exists_parent?_of_locate {directory : Place} {path : String}
    (hdirectory : tree.IsWay directory) (h : tree.locate directory path = .ok place)
    (hfile : (tree.file? place).isSome) :
    ∃ base, Path.parent? path = some base ∧
      (base = "" ∧ place.dropLast = directory ∨
        tree.locate directory base = .ok place.dropLast) := by
  obtain ⟨-, hzero, hfollow⟩ := locate_eq_ok_iff.1 h
  have hroot : tree.file? [] = none := hdirectory [] List.nil_prefix
  have hstart : tree.IsWay (if Path.isAbsolute path then [] else directory) := by
    split
    · exact hdirectory.above List.nil_prefix
    · exact hdirectory
  obtain ⟨before, name, hparts, hname, hbefore⟩ :=
    exists_name_of_follow (Path.parts_ne_nil path) hfollow hstart hfile
  obtain ⟨hidle, hparent⟩ | ⟨kept, idle, rfl, hidle, hne, hparent⟩ :=
    Path.parent?_of_parts hparts hname
  · have hplace := eq_of_follow_idle hidle hbefore
    refine ⟨_, hparent, ?_⟩
    cases habsolute : Path.isAbsolute path with
    | false =>
      rw [habsolute] at hplace
      exact .inl ⟨rfl, hplace⟩
    | true =>
      rw [habsolute, if_pos rfl] at hplace
      rw [hplace]
      exact .inr (locate_eq_ok_iff.2 ⟨by decide, by decide, by
        simp [Path.isAbsolute, Path.parts, Path.partsFrom, follow, hroot]⟩)
  · have hkept : kept ≠ [] := by
      rintro rfl
      exact hne String.intercalate_nil
    have hspelled : path
        = "/".intercalate kept ++ "/" ++ "/".intercalate (idle ++ [name]) := by
      rw [← Path.intercalate_append hkept (by simp), ← List.append_assoc, ← hparts,
        Path.intercalate_parts]
    have hbase : Path.parts ("/".intercalate kept) = kept := by
      refine Path.parts_intercalate hkept fun part hpart => ?_
      have hmem : part ∈ Path.parts path := by simp [hparts, hpart]
      exact Path.notMem_of_mem_parts hmem
    generalize "/".intercalate kept = base at *
    have hfront : base.toList <+: path.toList :=
      ⟨_, by rw [hspelled, String.append_assoc, String.toList_append]⟩
    obtain ⟨middle, hfollow, hrest⟩ := exists_of_follow_append hbefore
    obtain rfl := eq_of_follow_idle hidle hrest
    refine ⟨base, hparent, .inr (locate_eq_ok_iff.2 ⟨hne, ?_, ?_⟩)⟩
    · exact hasZero_of_front hfront hzero
    · rw [Path.isAbsolute_eq_of_front hfront hne, hbase]
      exact hfollow

/-- A relative path spelled behind a directory leads to where it leads from there. -/
theorem follow_parts_join {base path : String} (hbase : base ≠ "")
    (hrelative : Path.isAbsolute path = false)
    (h : tree.follow start (Path.parts base) = .ok place) :
    tree.follow start (Path.parts (Path.join base path)) = tree.follow place (Path.parts path) := by
  rw [Path.join, if_neg (by simp [hrelative])]
  split
  · rename_i hends
    have hends : base.toList.getLast? = some '/' := by simpa [hbase] using hends
    obtain ⟨cs, hcs⟩ := List.getLast?_eq_some_iff.1 hends
    have hspelled : base = String.ofList cs ++ "/" := by
      rw [← String.toList_inj, hcs]
      simp
    have hempty := Path.parts_append_slash (String.ofList cs) ""
    rw [String.append_empty, ← hspelled] at hempty
    rw [hempty] at h
    obtain ⟨middle, hfront, hlast⟩ := exists_of_follow_append h
    obtain rfl := eq_of_follow_idle (by simp [Path.parts, Path.partsFrom, IsIdle]) hlast
    rw [hspelled, Path.parts_append_slash, follow_append, hfront]
    rfl
  · rw [Path.parts_append_slash, follow_append, h]
    rfl

/-- What a path names behind a directory is what it names from there. -/
theorem locate_join {directory : Place} {base path : String} (hpath : path ≠ "")
    (h : tree.locate directory base = .ok place) :
    tree.locate directory (Path.join base path) = tree.locate place path := by
  obtain ⟨hbase, hzero, hfollow⟩ := locate_eq_ok_iff.1 h
  cases hrelative : Path.isAbsolute path with
  | true => simp [Path.join, locate, hrelative]
  | false =>
    obtain ⟨separator, hjoin, hseparator⟩ := Path.exists_toList_join base hrelative
    have hfront : base.toList <+: (Path.join base path).toList :=
      ⟨separator ++ path.toList, by rw [hjoin, List.append_assoc]⟩
    have hne : Path.join base path ≠ "" := by
      intro he
      rw [he] at hfront
      exact hbase (String.toList_eq_nil_iff.1 (List.prefix_nil.1 hfront))
    have hzeros : hasZero (Path.join base path) = hasZero path := by
      have hnone : Char.ofNat 0 ∉ base.toList := by simpa [hasZero] using hzero
      have hnone' : Char.ofNat 0 ∉ separator := fun hm => by
        simpa using hseparator _ hm
      simp [hasZero, hjoin, hnone, hnone']
    rw [locate, locate, if_neg hne, if_neg hpath, hzeros,
      ← Path.isAbsolute_eq_of_front hfront hbase, follow_parts_join hbase hrelative hfollow,
      hrelative]
    rfl

/-- What comes of asking for a name in a directory. -/
inductive Asked (tree : FileTree) (place : Place) (name : String) (asDirectory : Bool) :
    Except FileFault Place → Prop
  | tooLong : Asked tree place name asDirectory (.error .nameTooLong)
  | file (short : ¬ maxNameBytes < name.utf8ByteSize)
      (file : (tree.file? (place ++ [name])).isSome) (any : asDirectory = false) :
    Asked tree place name asDirectory (.ok (place ++ [name]))
  | noDirectory (short : ¬ maxNameBytes < name.utf8ByteSize)
      (file : (tree.file? (place ++ [name])).isSome) (only : asDirectory = true) :
    Asked tree place name asDirectory (.error .notDirectory)
  | directory (short : ¬ maxNameBytes < name.utf8ByteSize)
      (none : tree.file? (place ++ [name]) = none)
      (directory : tree.isDirectory (place ++ [name]) = true) :
    Asked tree place name asDirectory (.ok (place ++ [name]))
  | missing (short : ¬ maxNameBytes < name.utf8ByteSize)
      (none : tree.file? (place ++ [name]) = none)
      (missing : tree.isDirectory (place ++ [name]) = false) :
    Asked tree place name asDirectory (.error .notFound)

private theorem asked_ask (hstart : tree.file? start = none) (name : String) (asDirectory : Bool) :
    Asked tree start name asDirectory (tree.ask start name asDirectory) := by
  rw [ask]
  split_ifs with hlong hfile hname hnext hasks hdirectory
  · exact .tooLong
  · simp [hstart] at hfile
  · exact .tooLong
  · exact .noDirectory hname hnext hasks
  · exact .file hname hnext (by simpa using hasks)
  · exact .directory hname (by simpa using hnext) hdirectory
  · exact .missing hname (by simpa using hnext) (by simpa using hdirectory)

/-- A name leads to what stands there, or is not found. -/
theorem follow_name {name : String} {ps : List String} (hstart : tree.file? start = none)
    (hname : ¬ IsIdle name) (hup : name ≠ "..") (hshort : ¬ maxNameBytes < name.utf8ByteSize) :
    tree.follow start (name :: ps) =
      if (tree.file? (start ++ [name])).isSome ∨ tree.isDirectory (start ++ [name]) = true then
        tree.follow (start ++ [name]) ps
      else .error .notFound := by
  rw [IsIdle] at hname
  rw [follow, if_neg (by simp [hstart]), if_neg hname, if_neg hup, if_neg hshort]

private theorem follow_of_file {part : String} {ps : List String}
    (hfile : (tree.file? start).isSome) :
    tree.follow start (part :: ps) = .error .notDirectory := by
  rw [follow, if_pos hfile]

/-- Behind a file no parts lead on: the file is no directory, unless a path is too long before that
is found. -/
theorem trace_of_file {part : String} {ps : List String} (hfile : (tree.file? start).isSome)
    (hname : asksDirectory (part :: ps) = false) :
    tree.trace start (part :: ps) = .error .notDirectory ∨
      tree.trace start (part :: ps) = .error .nameTooLong := by
  induction ps generalizing part with
  | nil =>
    rw [asksDirectory] at hname
    split_ifs at hname with hidle
    · cases hname
    · rw [trace, if_neg hidle, if_neg (by simpa using hname), ask]
      split_ifs <;> simp
  | cons next ps ih =>
    rw [asksDirectory] at hname
    split_ifs at hname with hidle
    · rw [trace, if_pos hidle]
      exact ih hname
    · rw [trace, if_neg hidle, if_neg (by simpa using hname), ask]
      split_ifs <;> simp

/-- From a directory, parts lead to the same place whether or not the places on the way are asked
for, unless one of them has a path that is too long. -/
theorem trace_eq_or (hstart : tree.IsWay start) (ps : List String) :
    tree.trace start ps = tree.follow start ps ∨ tree.trace start ps = .error .nameTooLong := by
  induction ps generalizing start with
  | nil => exact .inl rfl
  | cons part ps ih =>
    have hnone : tree.file? start = none := hstart start (List.prefix_refl start)
    by_cases hidle : IsIdle part
    · have htrace : tree.trace start (part :: ps) = tree.trace start ps := if_pos hidle
      have hfollow : tree.follow start (part :: ps) = tree.follow start ps := by
        rw [follow, if_neg (by simp [hnone])]
        exact if_pos hidle
      rw [htrace, hfollow]
      exact ih hstart
    · by_cases hup : part = ".."
      · subst hup
        have hfollow : tree.follow start (".." :: ps) = tree.follow start.dropLast ps := by
          rw [follow, if_neg (by simp [hnone])]
          rfl
        rw [hfollow]
        exact ih (hstart.above (List.dropLast_prefix _))
      · have hasked := asked_ask hnone part (!ps.isEmpty && asksDirectory ps)
        rw [IsIdle] at hidle
        rw [trace, if_neg hidle, if_neg hup]
        generalize tree.ask start part (!ps.isEmpty && asksDirectory ps) = answer at hasked
        cases hasked with
        | tooLong => exact .inr rfl
        | file short file any =>
          rw [follow_name hnone hidle hup short, if_pos (.inl file)]
          cases ps with
          | nil => exact .inl rfl
          | cons next ps =>
            rw [follow_of_file file]
            exact trace_of_file file any
        | noDirectory short file only =>
          rw [follow_name hnone hidle hup short, if_pos (.inl file)]
          cases ps with
          | nil => cases only
          | cons next ps => exact .inl (follow_of_file file).symm
        | directory short none directory =>
          rw [follow_name hnone hidle hup short, if_pos (.inr directory)]
          apply ih
          intro above ha
          rcases List.prefix_concat_iff.1 ha with rfl | ha
          · exact none
          · exact hstart above ha
        | missing short none missing =>
          rw [follow_name hnone hidle hup short, if_neg (by simp [none, missing])]
          exact .inl rfl

/-- A path has the canonical path of the place that it names, unless a path on the way there is too
long. -/
theorem canonical_eq_or {directory : Place} (hdirectory : tree.IsWay directory) (path : String) :
    tree.canonical directory path = tree.locate directory path ∨
      tree.canonical directory path = .error .nameTooLong := by
  rw [canonical, locate]
  by_cases hempty : path = ""
  · rw [if_pos hempty, if_pos hempty]
    exact .inl rfl
  · rw [if_neg hempty, if_neg hempty]
    by_cases hzero : hasZero path = true
    · rw [if_pos hzero, if_pos hzero]
      exact .inl rfl
    · rw [if_neg hzero, if_neg hzero]
      apply trace_eq_or
      split
      · exact hdirectory.above List.nil_prefix
      · exact hdirectory

theorem locate_of_canonical {directory : Place} {path : String} (hdirectory : tree.IsWay directory)
    (h : tree.canonical directory path = .ok place) : tree.locate directory path = .ok place := by
  rcases canonical_eq_or hdirectory path with he | he
  · rw [← he, h]
  · rw [he] at h
    cases h

/-- A location leads from the path of a file to where it leads from the directory of the file. -/
theorem locate_join_baseOf {directory : Place} {path location : String}
    (hdirectory : tree.IsWay directory) (h : tree.locate directory path = .ok place)
    (hfile : (tree.file? place).isSome) (hlocation : location ≠ "") :
    tree.locate directory (Path.join (Collection.baseOf path) location)
      = tree.locate place.dropLast location := by
  obtain ⟨base, hparent, ⟨rfl, hplace⟩ | hbase⟩ := exists_parent?_of_locate hdirectory h hfile
  · rw [Collection.baseOf, hparent, Option.getD_some, hplace, Path.join_empty]
  · rw [Collection.baseOf, hparent, Option.getD_some, locate_join hlocation hbase]

/-- The place that a location in the file at a place names: as a locator, or else seen from the
directory of the file. -/
def placeNamed (tree : FileTree) (directory place : Place) (location : String) : Option Place :=
  let location := Text.trim location
  if location.toList.contains ':' then
    match Locator.toPath (placeText directory) location with
    | .ok path => (tree.locate directory path).toOption
    | .error _ => none
  else (tree.locate place.dropLast location).toOption

/-- The place that a location names is where the path leads that it resolves to. -/
theorem placeNamed_of_locate {directory : Place} {path : String} (hdirectory : tree.IsWay directory)
    (h : tree.locate directory path = .ok place) (hfile : (tree.file? place).isSome)
    (location : String) :
    tree.placeNamed directory place location =
      match Collection.resolve (placeText directory) (Collection.baseOf path) location with
      | .ok target => (tree.locate directory target).toOption
      | .error _ => none := by
  simp only [placeNamed, Collection.resolve]
  split_ifs with hcolon hempty
  · rfl
  · rw [hempty]
    rfl
  · exact congrArg Except.toOption (locate_join_baseOf hdirectory h hfile hempty).symm

end FileTree

end XsdCatalog
