import Mathlib.Data.List.DropRight

/-!
# `RustDfs.Lib.UnixPath`: path texts and the places they name

A `PathBuf` is the text of a path. `join`, `parent` and `fileName` work
on the text as `std::path` does: joining an absolute text replaces the
base, empty and `.` pieces do not count as components except a `.` at
the front.

A `Loc` is a place in a tree without links, as the names from the root
down to it. `resolve` finds the place of a path: `..` steps up, every
other component steps down. `resolve_join` and `resolve_parent` say what
joining and taking the parent mean for the place.
-/

set_option autoImplicit false

namespace RustDfs.Lib

/-- A place: the names from the root down. -/
abbrev Loc := List String

/-- The text of a path. -/
structure PathBuf where
  str : String
deriving DecidableEq, Repr

namespace PathBuf

/-- What stands between the separators, empty pieces included. -/
def pieces (p : PathBuf) : List String := (p.str.toList.splitOn '/').map String.ofList

/-- The path starts at the root. -/
def isAbsolute (p : PathBuf) : Bool := p.str.toList.head? == some '/'

/-- A piece that names nothing. -/
def blank (s : String) : Bool := s == "" || s == "."

/-- The components that move: names and `..`. -/
def names (p : PathBuf) : List String := p.pieces.filter fun s => !blank s

/-- `Path::join`. -/
def join (p : PathBuf) (s : String) : PathBuf :=
  if s.toList.head? = some '/' then ⟨s⟩
  else if p.str.toList.getLast?.all (· == '/') then ⟨p.str ++ s⟩
  else ⟨p.str ++ "/" ++ s⟩

/-- The pieces without the blank ones at the end. A `.` at the front is
a component of its own and stays. -/
def trimEnd : List String → List String
  | "." :: ps => "." :: ps.rdropWhile blank
  | ps => ps.rdropWhile blank

/-- The text with these pieces. -/
def ofPieces (ps : List String) : String :=
  String.ofList (['/'].intercalate (ps.map String.toList))

/-- `Path::parent`. -/
def parent (p : PathBuf) : Option PathBuf :=
  match trimEnd p.pieces with
  | [] => none
  | ps =>
      let up := trimEnd ps.dropLast
      some ⟨if up = [] ∧ p.isAbsolute then "/" else ofPieces up⟩

/-- `Path::file_name`. -/
def fileName (p : PathBuf) : Option String :=
  p.names.getLast?.filter (· ≠ "..")

/-- One component: `..` steps up, every other name steps down. -/
def walk (l : Loc) (s : String) : Loc := if s = ".." then l.dropLast else l ++ [s]

/-- The place a path names, for a process in directory `cwd`. -/
def resolve (cwd : Loc) (p : PathBuf) : Loc :=
  p.names.foldl walk (if p.isAbsolute then [] else cwd)

/-- A name of one normal component. -/
def IsNormal (s : String) : Prop :=
  s ≠ "" ∧ s ≠ "." ∧ s ≠ ".." ∧ '/' ∉ s.toList

instance (s : String) : Decidable (IsNormal s) :=
  inferInstanceAs (Decidable (_ ∧ _))

/-- A `.` at the front of a relative path, which is a component too. -/
def curDir (p : PathBuf) : Bool := p.pieces.head? == some "."

/-- Paths with the same components. `std::path` calls them equal. -/
def Same (p q : PathBuf) : Prop :=
  p.isAbsolute = q.isAbsolute ∧ p.curDir = q.curDir ∧ p.names = q.names

instance (p q : PathBuf) : Decidable (Same p q) := inferInstanceAs (Decidable (_ ∧ _ ∧ _))

/-! ### Pieces of a text -/

@[simp] theorem names_empty : names ⟨""⟩ = [] := by decide

theorem pieces_ne_nil (p : PathBuf) : p.pieces ≠ [] := by
  simp [pieces]

/-- A separator between two texts separates their pieces. -/
theorem pieces_append_sep (s t : String) :
    pieces ⟨s ++ "/" ++ t⟩ = pieces ⟨s⟩ ++ pieces ⟨t⟩ := by
  have sep : "/".toList = ['/'] := by decide
  simp only [pieces, String.toList_append, sep, List.append_assoc, List.singleton_append,
    List.splitOn_append_cons_self, List.map_append]

theorem names_append_sep (s t : String) :
    names ⟨s ++ "/" ++ t⟩ = names ⟨s⟩ ++ names ⟨t⟩ := by
  simp only [names, pieces_append_sep, List.filter_append]

/-- A separator at the end adds no name. -/
theorem names_concat_sep (s : String) : names ⟨s ++ "/"⟩ = names ⟨s⟩ := by
  have := names_append_sep s ""
  simpa using this

/-- A text without separators is one piece. -/
theorem pieces_of_no_sep {s : String} (h : '/' ∉ s.toList) : pieces ⟨s⟩ = [s] := by
  simp only [pieces, List.splitOn_eq_singleton h, List.map_cons, List.map_nil,
    String.ofList_toList]

theorem names_of_isNormal {s : String} (h : IsNormal s) : names ⟨s⟩ = [s] := by
  simp [names, pieces_of_no_sep h.2.2.2, blank, h.1, h.2.1]

theorem not_isAbsolute_of_isNormal {s : String} (h : IsNormal s) :
    isAbsolute ⟨s⟩ = false := by
  cases hs : s.toList with
  | nil => simp [isAbsolute, hs]
  | cons c cs =>
      have : c ≠ '/' := fun hc => h.2.2.2 (by simp [hs, hc])
      simp [isAbsolute, hs, this]

/-- No piece of a text holds a separator. -/
theorem not_mem_of_mem_splitOn {cs l : List Char} (h : l ∈ cs.splitOn '/') : '/' ∉ l := by
  induction cs generalizing l with
  | nil => simp_all
  | cons c cs ih =>
      rw [List.splitOn_cons_eq_if_modifyHead] at h
      obtain ⟨hd, tl, htl⟩ := List.exists_cons_of_ne_nil (List.splitOn_ne_nil '/' cs)
      rw [htl] at h ih
      by_cases hc : c = '/'
      · simp only [hc, beq_self_eq_true, if_true, List.mem_cons] at h
        obtain rfl | h := h
        · simp
        · exact ih (List.mem_cons.mpr h)
      · simp only [beq_iff_eq, hc, if_false, List.modifyHead_cons, List.mem_cons] at h
        obtain rfl | h := h
        · have := ih List.mem_cons_self
          simp [this, Ne.symm hc]
        · exact ih (List.mem_cons_of_mem _ h)

/-! ### Joining -/

/-- The text of a path is empty, ends in a separator, or does neither. -/
theorem end_cases (p : PathBuf) :
    p.str = "" ∨ (∃ s, p.str = s ++ "/") ∨ p.str.toList.getLast?.all (· == '/') = false := by
  obtain h | ⟨l, c, h⟩ := p.str.toList.eq_nil_or_concat'
  · exact .inl (by rw [← String.toList_inj, h]; decide)
  · by_cases hc : c = '/'
    · refine .inr (.inl ⟨String.ofList l, ?_⟩)
      rw [← String.toList_inj, h, hc, String.toList_append, String.toList_ofList]
      rfl
    · exact .inr (.inr (by simp [h, hc]))

/-- Joining a relative text appends its names. -/
theorem names_join {s : String} (h : isAbsolute ⟨s⟩ = false) (p : PathBuf) :
    (p.join s).names = p.names ++ names ⟨s⟩ := by
  simp only [isAbsolute, beq_eq_false_iff_ne] at h
  obtain ⟨t⟩ := p
  obtain rfl | ⟨u, rfl⟩ | he := end_cases ⟨t⟩
  · simp [join, h]
  · have hl : (u ++ "/").toList.getLast?.all (· == '/') = true := by
      simp [String.toList_append]
    simp only [join, h, if_false, hl, if_true, names_append_sep, names_concat_sep]
  · simp only [join, h, if_false, he, Bool.false_eq_true, names_append_sep]

theorem isAbsolute_join {s : String} (h : isAbsolute ⟨s⟩ = false) (p : PathBuf) :
    (p.join s).isAbsolute = p.isAbsolute := by
  simp only [isAbsolute, beq_eq_false_iff_ne] at h
  obtain ⟨t⟩ := p
  have grow : ∀ u : String, t.toList ≠ [] → isAbsolute ⟨t ++ u⟩ = isAbsolute ⟨t⟩ := by
    intro u ht
    cases htl : t.toList with
    | nil => exact absurd htl ht
    | cons c cs => simp [isAbsolute, String.toList_append, htl]
  by_cases ht : t = ""
  · subst ht
    simp [join, h, isAbsolute]
  · have ht' : t.toList ≠ [] := fun hc => ht (by rw [← String.toList_inj, hc]; decide)
    simp only [join, h, if_false]
    split
    · exact grow s ht'
    · rw [String.append_assoc]
      exact grow _ ht'

/-- The place of a joined path: the walk of the names from the base. -/
theorem resolve_join {s : String} (h : isAbsolute ⟨s⟩ = false) (cwd : Loc) (p : PathBuf) :
    resolve cwd (p.join s) = (names ⟨s⟩).foldl walk (resolve cwd p) := by
  simp only [resolve, names_join h, isAbsolute_join h, List.foldl_append]

/-- Joining one normal name steps down. -/
theorem resolve_join_of_isNormal {s : String} (h : IsNormal s) (cwd : Loc) (p : PathBuf) :
    resolve cwd (p.join s) = resolve cwd p ++ [s] := by
  rw [resolve_join (not_isAbsolute_of_isNormal h), names_of_isNormal h]
  simp [walk, h.2.2.1]

/-! ### Paths with the same components -/

/-- They name one place. -/
theorem Same.resolve {p q : PathBuf} (h : Same p q) (cwd : Loc) : resolve cwd p = resolve cwd q := by
  rw [PathBuf.resolve, PathBuf.resolve, h.1, h.2.2]

/-- A name at the end says nothing about the front. -/
theorem curDir_join {s : String} (h : IsNormal s) (p : PathBuf) : (p.join s).curDir = p.curDir := by
  have hs : s.toList.head? ≠ some '/' := by
    simpa [isAbsolute] using not_isAbsolute_of_isNormal h
  have grow : ∀ ps qs : List String, ps ≠ [] → (ps ++ qs).head? = ps.head? := by
    intro ps qs hne
    cases ps with
    | nil => exact absurd rfl hne
    | cons _ _ => rfl
  obtain ⟨t⟩ := p
  obtain rfl | ⟨u, rfl⟩ | he := end_cases ⟨t⟩
  · have empty : curDir ⟨""⟩ = false := by decide
    have joined : join ⟨""⟩ s = ⟨s⟩ := by simp [join, hs]
    rw [joined, empty, curDir, pieces_of_no_sep h.2.2.2]
    simpa using h.2.1
  · have hl : (u ++ "/").toList.getLast?.all (· == '/') = true := by
      simp [String.toList_append]
    have front := pieces_append_sep u ""
    rw [String.append_empty] at front
    simp only [join, hs, if_false, hl, if_true, curDir, front, pieces_append_sep,
      grow _ _ (pieces_ne_nil ⟨u⟩)]
  · simp only [join, hs, if_false, he, Bool.false_eq_true, curDir, pieces_append_sep,
      grow _ _ (pieces_ne_nil ⟨t⟩)]

/-- What one name was joined to is the same when the results are. -/
theorem Same.of_join {s : String} (h : IsNormal s) {p q : PathBuf} (hs : Same (p.join s) (q.join s)) :
    Same p q := by
  obtain ⟨ha, hc, hn⟩ := hs
  have relative := not_isAbsolute_of_isNormal h
  rw [isAbsolute_join relative, isAbsolute_join relative] at ha
  rw [curDir_join h, curDir_join h] at hc
  rw [names_join relative, names_join relative] at hn
  exact ⟨ha, hc, List.append_cancel_right hn⟩

/-! ### The parent -/

theorem filter_rdropWhile_blank (ps : List String) :
    (ps.rdropWhile blank).filter (fun s => !blank s) = ps.filter fun s => !blank s := by
  induction ps using List.reverseRecOn with
  | nil => rfl
  | append_singleton ps s ih =>
      rw [List.rdropWhile_concat, List.filter_append]
      cases hs : blank s with
      | true => simp [ih, hs]
      | false => simp [hs]

/-- Trimming drops no name. -/
theorem filter_trimEnd (ps : List String) :
    (trimEnd ps).filter (fun s => !blank s) = ps.filter fun s => !blank s := by
  unfold trimEnd
  split
  · simp [filter_rdropWhile_blank, List.filter_cons]
  · exact filter_rdropWhile_blank ps

theorem trimEnd_isPrefix (ps : List String) : trimEnd ps <+: ps := by
  unfold trimEnd
  split
  · exact List.cons_prefix_cons.mpr ⟨rfl, List.rdropWhile_prefix _ _⟩
  · exact List.rdropWhile_prefix _ _

/-- What is left after trimming ends in a name if it has one. -/
theorem trimEnd_eq_concat {ps : List String} (h : ps.filter (fun s => !blank s) ≠ []) :
    ∃ l s, trimEnd ps = l ++ [s] ∧ blank s = false := by
  have last : ∀ qs : List String, qs.filter (fun s => !blank s) ≠ [] →
      ∃ l s, qs.rdropWhile blank = l ++ [s] ∧ blank s = false := by
    intro qs hq
    have hne : qs.rdropWhile blank ≠ [] := by
      intro hnil
      rw [← filter_rdropWhile_blank, hnil] at hq
      exact hq rfl
    refine ⟨_, _, (List.dropLast_append_getLast hne).symm, ?_⟩
    simpa using List.rdropWhile_last_not blank qs hne
  unfold trimEnd
  split
  · rename_i ps
    have hps : ps.filter (fun s => !blank s) ≠ [] := by
      rwa [List.filter_cons, if_neg (by decide)] at h
    obtain ⟨l, s, hl, hs⟩ := last ps hps
    exact ⟨"." :: l, s, by rw [hl]; rfl, hs⟩
  · exact last _ h

/-- An empty piece alone is trimmed away. -/
theorem trimEnd_ne_singleton_empty (ps : List String) : trimEnd ps ≠ [""] := by
  unfold trimEnd
  split
  · simp
  · intro h
    have hne : List.rdropWhile blank ps ≠ [] := by simp [h]
    have := List.rdropWhile_last_not blank ps hne
    simp [h, blank] at this

/-- Pieces put together and taken apart again. -/
theorem pieces_ofPieces {ps : List String} (hne : ps ≠ [])
    (h : ∀ s ∈ ps, '/' ∉ s.toList) : pieces ⟨ofPieces ps⟩ = ps := by
  have hsep : ∀ l ∈ ps.map String.toList, '/' ∉ l := by
    intro l hl
    obtain ⟨s, hs, rfl⟩ := List.mem_map.mp hl
    exact h s hs
  have hne' : ps.map String.toList ≠ [] := by simpa using hne
  simp only [pieces, ofPieces, String.toList_ofList, List.splitOn_intercalate _ hsep hne',
    List.map_map]
  simp [Function.comp_def]

theorem ofPieces_pieces (p : PathBuf) : ofPieces p.pieces = p.str := by
  have : List.map String.toList (List.map String.ofList (p.str.toList.splitOn '/'))
      = p.str.toList.splitOn '/' := by simp [Function.comp_def]
  simp only [ofPieces, pieces, this, List.intercalate_splitOn, String.ofList_toList]

/-- A text is absolute when its first piece is empty and others follow. -/
theorem isAbsolute_ofPieces (s : String) (ps : List String) (hs : '/' ∉ s.toList) :
    isAbsolute ⟨ofPieces (s :: ps)⟩ = (s == "" && !ps.isEmpty) := by
  cases hsl : s.toList with
  | nil =>
      obtain rfl : s = "" := by rw [← String.toList_inj, hsl]; decide
      cases ps with
      | nil => decide
      | cons t ts => simp [isAbsolute, ofPieces, List.intercalate_cons_cons]
  | cons c cs =>
      have hc : c ≠ '/' := fun hc => hs (by simp [hsl, hc])
      have hne : s ≠ "" := by
        rintro rfl
        simp at hsl
      have hhead : (['/'].intercalate ((s :: ps).map String.toList)).head? = some c := by
        cases ps with
        | nil => simp [hsl]
        | cons t ts => simp [List.intercalate_cons_cons, hsl]
      have hc' : (c == '/') = false := by simpa using hc
      have hne' : (s == "") = false := by simpa using hne
      simp only [isAbsolute, ofPieces, String.toList_ofList, hhead, hne', Bool.false_and]
      exact hc'

/-- The parent of a path that ends in a name drops that name. -/
theorem parent_spec {p : PathBuf} (h : p.names ≠ []) :
    ∃ q, p.parent = some q ∧ q.names = p.names.dropLast ∧ q.isAbsolute = p.isAbsolute := by
  obtain ⟨l, s, hl, hs⟩ := trimEnd_eq_concat h
  -- `l` is what comes before the last name, and blank pieces are no names
  have hnames : l.filter (fun s => !blank s) = p.names.dropLast := by
    rw [names, ← filter_trimEnd p.pieces, hl, List.filter_append]
    simp [hs]
  have hparent : p.parent
      = some ⟨if trimEnd l = [] ∧ p.isAbsolute then "/" else ofPieces (trimEnd l)⟩ := by
    unfold parent
    split
    · rename_i hnil
      rw [hl] at hnil
      simp at hnil
    · rw [hl, List.dropLast_concat]
  have hpre : trimEnd l <+: p.pieces :=
    (trimEnd_isPrefix l).trans ((List.prefix_append l [s]).trans (hl ▸ trimEnd_isPrefix _))
  refine ⟨_, hparent, ?_, ?_⟩
  · rw [← hnames, ← filter_trimEnd l]
    split
    · rename_i hup
      rw [hup.1]
      decide
    · cases hup : trimEnd l with
      | nil => decide
      | cons t ts =>
          have hsep : ∀ s ∈ t :: ts, '/' ∉ s.toList := by
            intro s hs
            obtain ⟨cs, hcs, rfl⟩ := List.mem_map.mp (hpre.subset (hup ▸ hs))
            simpa using not_mem_of_mem_splitOn hcs
          simp only [names, pieces_ofPieces (List.cons_ne_nil _ _) hsep]
  · cases hup : trimEnd l with
    | nil =>
        cases ha : p.isAbsolute with
        | true => decide
        | false => decide
    | cons t ts =>
        -- what is left is a prefix of the path, so it starts as the path does
        obtain ⟨rest, hrest⟩ : ∃ rest, p.pieces = t :: rest := by
          obtain ⟨r, hr⟩ := hup ▸ hpre
          exact ⟨ts ++ r, hr.symm⟩
        have hsep : '/' ∉ t.toList := by
          obtain ⟨cs, hcs, rfl⟩ := List.mem_map.mp (hpre.subset (hup ▸ List.mem_cons_self))
          simpa using not_mem_of_mem_splitOn hcs
        have hp : p.isAbsolute = (t == "" && !rest.isEmpty) := by
          rw [← isAbsolute_ofPieces t rest hsep, ← hrest, ofPieces_pieces]
        rw [hp, if_neg (fun h => by cases h.1), isAbsolute_ofPieces t ts hsep]
        by_cases ht : t = ""
        · -- An empty first piece stays only in front of something.
          have hts : ts ≠ [] := by
            rintro rfl
            exact trimEnd_ne_singleton_empty l (ht ▸ hup)
          have hrest' : rest ≠ [] := by
            rintro rfl
            obtain ⟨r, hr⟩ := hup ▸ hpre
            rw [hrest, List.cons_append, List.cons.injEq] at hr
            exact hts (List.append_eq_nil_iff.mp hr.2).1
          rw [List.isEmpty_eq_false_iff.mpr hts, List.isEmpty_eq_false_iff.mpr hrest']
        · have ht' : (t == "") = false := by simpa using ht
          rw [ht', Bool.false_and, Bool.false_and]

/-- The place of the parent of a path whose last component is a name. -/
theorem resolve_parent {p : PathBuf} {l : List String} {s : String}
    (h : p.names = l ++ [s]) (hs : s ≠ "..") (cwd : Loc) :
    ∃ q, p.parent = some q ∧ resolve cwd q = (resolve cwd p).dropLast := by
  obtain ⟨q, hq, hn, ha⟩ := parent_spec (p := p) (by simp [h])
  refine ⟨q, hq, ?_⟩
  simp [resolve, hn, ha, h, walk, hs]

end PathBuf

end RustDfs.Lib
