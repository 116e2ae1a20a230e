import XsdCatalog.Proofs.MatchedElement
import XsdCatalog.Proofs.TagDeclarations

/-!
# Inherited declarations

The first tag of an element that is handed out gets one declaration for each key that an open
element around it declares and that it does not declare itself, with the value that the innermost
of them gives, in the order in which the keys appear from the outermost element inwards.
-/

namespace XsdCatalog.Fragment

namespace Declaration

/-- The keys of declarations. -/
def keys (ds : List Declaration) : List Bytes :=
  ds.map (·.key)

/-- The value that a key has in the innermost scope that declares it, of scopes given from the
outermost inwards. -/
def innermost? (scopes : List (List Declaration)) (key : Bytes) : Option Bytes :=
  (scopes.reverse.findSome? (·.find? (·.key == key))).map (·.value)

theorem any_key_iff {ds : List Declaration} {key : Bytes} :
    ds.any (·.key == key) = true ↔ key ∈ keys ds := by
  rw [List.any_eq_true]
  simp only [keys, List.mem_map, beq_iff_eq]

/-- Attributes have keys that stood nowhere before, each its own. -/
theorem nodup_attributes (seen : List Bytes) (bytes : Bytes) :
    (keys (attributes seen bytes)).Nodup ∧ ∀ key ∈ keys (attributes seen bytes), key ∉ seen := by
  fun_induction attributes seen bytes with
  | case1 => exact ⟨List.nodup_nil, List.forall_mem_nil _⟩
  | case2 => exact ⟨List.nodup_nil, List.forall_mem_nil _⟩
  | case3 _ _ _ _ _ _ _ _ _ ih => exact ih
  | case4 => exact ⟨List.nodup_nil, List.forall_mem_nil _⟩
  | case5 seen bytes b rest hb key behind hseen value after hv hk ih =>
    have hseen : key ∉ seen := fun hmem => hseen (List.contains_iff_mem.2 hmem)
    have hbehind : ∀ k ∈ keys (attributes (key :: seen) after), k ≠ key ∧ k ∉ seen :=
      fun k hk => not_or.1 (mt List.mem_cons.2 (ih.2 k hk))
    cases value with
    | none => exact ⟨ih.1, fun k hk => (hbehind k hk).2⟩
    | some value =>
      refine ⟨List.nodup_cons.2 ⟨fun hmem => (hbehind key hmem).1 rfl, ih.1⟩, fun k hk => ?_⟩
      rcases List.mem_cons.1 hk with rfl | hk
      · exact hseen
      · exact (hbehind k hk).2
  | case6 _ _ _ _ _ _ _ _ _ ih => exact ih

/-- A tag declares each key once. -/
theorem nodup_ofTag (body : Bytes) : (keys (ofTag body)).Nodup :=
  (nodup_attributes [] _).1.sublist (List.filter_sublist.map _)

/-- Declarations in force are the innermost ones of their keys. -/
theorem mem_inForce_iff {scopes : List (List Declaration)}
    (h : ∀ scope ∈ scopes, (keys scope).Nodup) (d : Declaration) :
    d ∈ inForce scopes ↔ innermost? scopes d.key = some d.value := by
  have hscopes : scopes.flatten.reverse.find? (·.key == d.key)
      = scopes.reverse.findSome? (·.find? (·.key == d.key)) := by
    induction scopes with
    | nil => rfl
    | cons scope scopes ih =>
      rw [List.flatten_cons, List.reverse_append, List.find?_append,
        ih fun s hs => h s (List.mem_cons_of_mem scope hs),
        find?_reverse (h scope List.mem_cons_self), List.reverse_cons, List.findSome?_append,
        List.findSome?_singleton]
  rw [innermost?, ← hscopes, ← find?_inForce, Option.map_eq_some_iff]
  constructor
  · intro hd
    exact ⟨d, (find?_eq_some_iff (nodup_inForce scopes)).2 ⟨hd, rfl⟩, rfl⟩
  · rintro ⟨e, he, hvalue⟩
    obtain ⟨hmem, hkey⟩ := (find?_eq_some_iff (nodup_inForce scopes)).1 he
    have hed : e = d := by
      cases e
      cases d
      simp_all
    rwa [hed] at hmem

private theorem keys_put (ds : List Declaration) (d : Declaration) :
    keys (put ds d) = if d.key ∈ keys ds then keys ds else keys ds ++ [d.key] := by
  rw [put]
  by_cases hmem : d.key ∈ keys ds
  · rw [if_pos (any_key_iff.2 hmem), if_pos hmem, keys, List.map_map]
    exact List.map_congr_left fun e _ => key_replace d e
  · rw [if_neg (mt any_key_iff.1 hmem), if_neg hmem, keys, List.map_append]
    rfl

/-- Each key comes where it first appeared. -/
theorem keys_foldl_put (ds : List Declaration) :
    (∀ key, key ∈ keys (ds.foldl put []) ↔ key ∈ keys ds) ∧
      (keys (ds.foldl put [])).Pairwise fun key key' =>
        (keys ds).idxOf key < (keys ds).idxOf key' := by
  induction ds using List.reverseRecOn with
  | nil => exact ⟨fun _ => Iff.rfl, .nil⟩
  | append_singleton ds d ih =>
    obtain ⟨hmem, horder⟩ := ih
    have hkeys : keys (ds ++ [d]) = keys ds ++ [d.key] := List.map_append
    have hfront : ∀ key ∈ keys (ds.foldl put []),
        (keys ds ++ [d.key]).idxOf key = (keys ds).idxOf key :=
      fun key hkey => List.idxOf_append_of_mem ((hmem key).1 hkey)
    have hbefore : (keys (ds.foldl put [])).Pairwise fun key key' =>
        (keys ds ++ [d.key]).idxOf key < (keys ds ++ [d.key]).idxOf key' := by
      refine horder.imp_of_mem fun hkey hkey' hlt => ?_
      rwa [hfront _ hkey, hfront _ hkey']
    rw [List.foldl_append, List.foldl_cons, List.foldl_nil, keys_put, hkeys]
    by_cases hd : d.key ∈ keys (ds.foldl put [])
    · rw [if_pos hd]
      refine ⟨fun key => ?_, hbefore⟩
      have hd : d.key ∈ keys ds := (hmem d.key).1 hd
      rw [hmem, List.mem_append, List.mem_singleton]
      exact ⟨.inl, fun h => h.elim id fun h => h ▸ hd⟩
    · rw [if_neg hd]
      refine ⟨fun key => by simp [hmem], ?_⟩
      -- a new key appears behind all others
      have hnew : (keys ds ++ [d.key]).idxOf d.key = (keys ds).length := by
        rw [List.idxOf_append_of_notMem (mt (hmem d.key).2 hd), List.idxOf_cons_self, Nat.add_zero]
      refine List.pairwise_append.2 ⟨hbefore, List.pairwise_singleton _ _, ?_⟩
      intro key hkey key' hkey'
      obtain rfl := List.mem_singleton.1 hkey'
      rw [hfront key hkey, hnew]
      exact List.idxOf_lt_length_of_mem ((hmem key).1 hkey)

private theorem mem_missing_iff {own : List Declaration} {scopes : List (List Declaration)}
    (h : ∀ scope ∈ scopes, (keys scope).Nodup) (d : Declaration) :
    d ∈ missing own scopes ↔ innermost? scopes d.key = some d.value ∧ d.key ∉ keys own ∧
      (d.value = [] → d.key = ascii "xmlns") := by
  have hown : (!own.any (·.key == d.key)) = true ↔ d.key ∉ keys own := by
    rw [Bool.not_eq_true', Bool.eq_false_iff, ne_eq, any_key_iff]
  have hvalue : (!d.value.isEmpty || d.key == ascii "xmlns") = true
      ↔ (d.value = [] → d.key = ascii "xmlns") := by
    rw [Bool.or_eq_true, beq_iff_eq, Bool.not_eq_true', List.isEmpty_eq_false_iff]
    exact or_iff_not_imp_left.trans (by rw [not_not])
  rw [missing, List.mem_filter, mem_inForce_iff h, Bool.and_eq_true, hown, hvalue]

private theorem pairwise_missing (own : List Declaration) (scopes : List (List Declaration)) :
    (missing own scopes).Pairwise fun d e =>
      (keys scopes.flatten).idxOf d.key < (keys scopes.flatten).idxOf e.key :=
  (List.pairwise_map.1 (keys_foldl_put scopes.flatten).2).sublist List.filter_sublist

end Declaration

open Declaration (keys innermost? ofTag written)

/-- The body of the first tag of pieces. -/
def tagBody : List Piece → Bytes
  | .start body :: _ => body
  | .empty body :: _ => body
  | _ => []

/-- Pieces with more bytes at the end of their first tag's body. -/
def extendTag (extra : Bytes) : List Piece → List Piece
  | .start body :: ps => .start (body ++ extra) :: ps
  | .empty body :: ps => .empty (body ++ extra) :: ps
  | ps => ps

theorem IsElement.inheriting_eq {element : List Piece} (h : IsElement element)
    (scopes : List (List Declaration)) : inheriting scopes element
      = extendTag ((Declaration.missing (ofTag (tagBody element)) scopes).flatMap written)
          element := by
  cases h with
  | empty body => rfl
  | full => rfl

/-- What an element that is handed out inherits. Around it are the tags that `opened` lists from
the outermost inwards, and no others. Each key that one of them declares and that the element's own
first tag does not is appended to this tag once, with the value that the innermost of them gives it
and as it is written there; only a qualifier whose innermost value is empty is left out. The keys
stand in the order in which they appear first in the tags around the element. -/
theorem extract_inherited (document : String) (line column : Nat) (bytes : Bytes) :
    (∀ text, extract document line column bytes = .ok text →
      Nonempty (Matched bytes ⟨line, column⟩)) ∧
    ∀ m : Matched bytes ⟨line, column⟩, ∃ (opened : List Bytes) (appended : List Declaration),
      (∀ opened', Opens (m.front.map (·.piece)) opened' ↔ opened' = opened) ∧
      (∀ key value, ⟨key, value⟩ ∈ appended ↔
        innermost? (opened.map ofTag) key = some value ∧ key ∉ keys (ofTag (tagBody m.element)) ∧
          (value = [] → key = ascii "xmlns")) ∧
      (appended.Pairwise fun d e =>
        (keys (opened.flatMap ofTag)).idxOf d.key < (keys (opened.flatMap ofTag)).idxOf e.key) ∧
      extract document line column bytes
        = render (extendTag (appended.flatMap written) m.element) := by
  refine ⟨fun text => exists_matched, fun m => ?_⟩
  obtain ⟨opened, hopened⟩ := m.exists_opens
  have hscopes : scopesBehind (m.front.map (·.piece)) = opened.map ofTag := by
    rw [scopesBehind, hopened.openTags_eq, List.map_reverse, List.reverse_reverse]
  have hnodup : ∀ scope ∈ opened.map ofTag, (keys scope).Nodup := by
    intro scope hscope
    obtain ⟨body, -, rfl⟩ := List.mem_map.1 hscope
    exact Declaration.nodup_ofTag body
  refine ⟨opened, Declaration.missing (ofTag (tagBody m.element)) (opened.map ofTag), ?_, ?_, ?_,
    ?_⟩
  · intro opened'
    exact ⟨hopened.unique, fun h => h ▸ hopened⟩
  · intro key value
    exact Declaration.mem_missing_iff hnodup ⟨key, value⟩
  · rw [List.flatMap_def]
    exact Declaration.pairwise_missing _ _
  · rw [m.extract_eq, hscopes, m.isElement.inheriting_eq]

/-- The inner `xmlns:p` comes where the outer one appeared, the closed `q` gives nothing. -/
example :
    extract "a.xsd" 1 68 (Text.toBytes ("<r xmlns='a' xmlns:p='b'><q xmlns:p='c'/>"
        ++ "<s xmlns:q='' xmlns:p='d'><t/></s></r>"))
      = .ok "<t xmlns=\"a\" xmlns:p=\"d\"/>" := by
  decide +kernel

end XsdCatalog.Fragment
