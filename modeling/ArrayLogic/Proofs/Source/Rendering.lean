import ArrayLogic.Proofs.Source
import ArrayLogic.Proofs.Text.Trimming
import Mathlib.Data.List.Sort

/-! # Renderings of equations

A line may hold an equation in many layouts: blanks stand anywhere around the two sides, and a
comment may follow. No side can contain a sign of equality or start a comment, so every layout is
read as the same equation, and what is read tells the layout up to blanks and comments.
-/

namespace ArrayLogic.Source

open Text (Blank Consists Padded Trimmed lines trim)

/-! ## Layouts of a line -/

/-- The text is empty or a comment. -/
def Comment (cs : List Char) : Prop :=
  ∀ c ∈ cs.head?, c = '#'

/-- The line is blank or holds a comment only. -/
def HoldsNothing (line : List Char) : Prop :=
  ∃ blanks comment, Blank blanks ∧ Comment comment ∧ line = blanks ++ comment

/-- The line holds the two sides around a sign of equality, with blanks around each of them and
maybe a comment behind. -/
def HoldsEquation (line name expression : List Char) : Prop :=
  ∃ left right comment, Padded left name ∧ Padded right expression ∧ Comment comment ∧
    line = left ++ '=' :: (right ++ comment)

/-- A side as it is read: characters of the equation language without a blank at either end. -/
structure IsSide (cs : List Char) : Prop where
  ne_nil : cs ≠ []
  safe : isSafe cs = true
  trimmed : Trimmed cs

theorem forall_bne_iff {separator : Char} {cs : List Char} :
    (∀ c ∈ cs, (c != separator) = true) ↔ separator ∉ cs := by
  simp only [bne_iff_ne]
  exact ⟨fun h hmem => h separator hmem rfl, fun h c hc hsame => h (hsame ▸ hc)⟩

/-- The content of a line is what stands in front of its comment, without the blanks around it. -/
theorem content_eq_iff {line cs : List Char} : content line = cs ↔
    Trimmed cs ∧ ∃ body comment, Padded body cs ∧ '#' ∉ body ∧ Comment comment ∧
      line = body ++ comment := by
  apply eq_iff_of_exists
  · obtain ⟨body, comment, hbody, hcomment, rfl⟩ := Text.exists_append_eq (· != '#') line
    obtain ⟨cs, htrimmed, hpadded⟩ := Text.exists_padded body
    have hhead : Comment comment := fun c hc => by simpa using hcomment c hc
    exact ⟨cs, htrimmed, body, comment, hpadded, forall_bne_iff.mp hbody, hhead, rfl⟩
  · rintro cs ⟨htrimmed, body, comment, hpadded, hbody, hcomment, rfl⟩
    have hhead : ∀ c ∈ comment.head?, (c != '#') = false := fun c hc => by simp [hcomment c hc]
    rw [content, Text.takeWhile_append_eq (forall_bne_iff.mpr hbody) hhead]
    exact Text.trim_of_padded hpadded htrimmed

theorem isSafeChar_of_isSafe {cs : List Char} (h : isSafe cs = true) :
    ∀ c ∈ cs, isSafeChar c = true :=
  List.all_eq_true.mp (Bool.and_eq_true_iff.mp h).2

theorem IsSide.safe_of_mem {text cs : List Char} (h : IsSide cs) (hpadded : Padded text cs) :
    ∀ c ∈ text, isSafeChar c = true := by
  obtain ⟨before, after, hbefore, hafter, rfl⟩ := hpadded
  have hblank {blanks : List Char} (h : Blank blanks) : ∀ c ∈ blanks, isSafeChar c = true := by
    intro c hc
    simp [isSafeChar, h c hc]
  exact List.forall_mem_append.mpr
    ⟨hblank hbefore, List.forall_mem_append.mpr ⟨isSafeChar_of_isSafe h.safe, hblank hafter⟩⟩

/-- Neither a side nor the blanks around it contain a character outside the equation language. -/
theorem IsSide.not_mem {text cs : List Char} (h : IsSide cs) (hpadded : Padded text cs) {c : Char}
    (hc : isSafeChar c = false) : c ∉ text := by
  intro hmem
  rw [h.safe_of_mem hpadded c hmem] at hc
  cases hc

theorem sides_eq_ok_none_iff {line : List Char} : sides line = .ok none ↔ HoldsNothing line := by
  have hnil : sides line = .ok none ↔ content line = [] := by
    unfold sides
    dsimp only
    split
    next hempty => exact iff_of_true rfl (List.isEmpty_iff.mp hempty)
    next hempty =>
      refine iff_of_false ?_ (fun h => hempty (List.isEmpty_iff.mpr h))
      split
      · simp
      · split
        · simp
        · split
          · simp
          · simp
  rw [hnil, content_eq_iff]
  constructor
  · rintro ⟨-, body, comment, hbody, -, hcomment, rfl⟩
    exact ⟨body, comment, Text.padded_nil_iff.mp hbody, hcomment, rfl⟩
  · rintro ⟨blanks, comment, hblanks, hcomment, rfl⟩
    refine ⟨Text.trimmed_nil, blanks, comment, Text.padded_nil_iff.mpr hblanks, ?_, hcomment, rfl⟩
    intro hmem
    cases hblanks '#' hmem

theorem sides_of_content {line front back : List Char}
    (hcontent : content line = front ++ '=' :: back) (hfront : '=' ∉ front) :
    sides line =
      if (trim front).isEmpty || (trim back).isEmpty then .error .emptySide
      else if !(isSafe (trim front) && isSafe (trim back)) then .error .unsupportedCharacters
      else .ok (some (trim front, trim back)) := by
  have hbne := forall_bne_iff.mpr hfront
  have hhead : ∀ c ∈ ('=' :: back).head?, (c != '=') = false := by simp
  unfold sides
  dsimp only
  rw [hcontent, Text.takeWhile_append_eq hbne hhead, Text.dropWhile_append_eq hbne hhead]
  simp

section

variable {line front back name expression : List Char}

theorem mem_content_of_sides (h : sides line = .ok (some (name, expression))) :
    '=' ∈ content line := by
  unfold sides at h
  dsimp only at h
  split at h
  · simp at h
  · split at h
    · simp at h
    next hcontains => simpa using hcontains

/-- The sides are what trimming leaves on both sides of the first sign of equality. -/
theorem sides_of_content_eq_ok_iff (hcontent : content line = front ++ '=' :: back)
    (hfront : '=' ∉ front) : sides line = .ok (some (name, expression)) ↔
      (IsSide name ∧ Padded front name) ∧ IsSide expression ∧ Padded back expression := by
  have hside {text cs : List Char} : IsSide cs ∧ Padded text cs ↔
      trim text = cs ∧ cs ≠ [] ∧ isSafe cs = true := by
    rw [Text.trim_eq_iff]
    constructor
    · rintro ⟨⟨hne, hsafe, htrimmed⟩, hpadded⟩
      exact ⟨⟨htrimmed, hpadded⟩, hne, hsafe⟩
    · rintro ⟨⟨htrimmed, hpadded⟩, hne, hsafe⟩
      exact ⟨⟨hne, hsafe, htrimmed⟩, hpadded⟩
  rw [sides_of_content hcontent hfront, hside, hside]
  split
  next hempty =>
    refine iff_of_false (by simp) ?_
    rintro ⟨⟨rfl, hne, -⟩, rfl, hne', -⟩
    simp [hne, hne'] at hempty
  next hempty =>
    split
    next hsafe =>
      refine iff_of_false (by simp) ?_
      rintro ⟨⟨rfl, -, hname⟩, rfl, -, hexpression⟩
      simp [hname, hexpression] at hsafe
    next hsafe =>
      constructor
      · intro h
        obtain ⟨rfl, rfl⟩ := Prod.mk.inj (Option.some.inj (Except.ok.inj h))
        simp at hempty hsafe
        exact ⟨⟨rfl, hempty.1, hsafe.1⟩, rfl, hempty.2, hsafe.2⟩
      · rintro ⟨⟨rfl, -⟩, rfl, -⟩
        rfl

theorem HoldsEquation.of_content (hcontent : content line = front ++ '=' :: back)
    (hfront : Padded front name) (hback : Padded back expression) :
    HoldsEquation line name expression := by
  obtain ⟨-, body, comment, hbody, -, hcomment, rfl⟩ := content_eq_iff.mp hcontent
  obtain ⟨before, after, hbefore, hafter, rfl⟩ := hbody
  exact ⟨before ++ front, back ++ after, comment, hfront.padLeft hbefore, hback.padRight hafter,
    hcomment, by simp⟩

/-- Only the blanks at both ends and the comment are no part of the content. -/
theorem HoldsEquation.exists_content (h : HoldsEquation line name expression) (hname : IsSide name)
    (hexpression : IsSide expression) : ∃ front back, content line = front ++ '=' :: back ∧
      Padded front name ∧ Padded back expression := by
  obtain ⟨left, right, comment, hleft, hright, hcomment, rfl⟩ := h
  have hhash : '#' ∉ left ++ '=' :: right := by
    simp [hname.not_mem hleft (rfl : isSafeChar '#' = false),
      hexpression.not_mem hright (rfl : isSafeChar '#' = false)]
  obtain ⟨before, inside, hbefore, hinside, rfl⟩ := hleft
  obtain ⟨inside', after, hinside', hafter, rfl⟩ := hright
  have htrimmed : Trimmed (name ++ ((inside ++ '=' :: inside') ++ expression)) :=
    hname.trimmed.append hexpression.trimmed hname.ne_nil hexpression.ne_nil
  refine ⟨name ++ inside, inside' ++ expression, ?_, (Padded.refl name).padRight hinside,
    (Padded.refl expression).padLeft hinside'⟩
  refine content_eq_iff.mpr ⟨by simpa using htrimmed, _, comment, ?_, hhash, hcomment, by simp⟩
  exact ⟨before, after, hbefore, hafter, by simp⟩

/-- The sides of an equation are read from the lines that hold it and from no others. -/
theorem sides_eq_ok_some_iff : sides line = .ok (some (name, expression)) ↔
    IsSide name ∧ IsSide expression ∧ HoldsEquation line name expression := by
  constructor
  · intro h
    obtain ⟨front, back, hcontent, hfront⟩ := List.eq_append_cons_of_mem (mem_content_of_sides h)
    obtain ⟨⟨hname, hleft⟩, hexpression, hright⟩ :=
      (sides_of_content_eq_ok_iff hcontent hfront).mp h
    exact ⟨hname, hexpression, .of_content hcontent hleft hright⟩
  · rintro ⟨hname, hexpression, hholds⟩
    obtain ⟨front, back, hcontent, hfront, hback⟩ := hholds.exists_content hname hexpression
    have hequals : '=' ∉ front := hname.not_mem hfront rfl
    exact (sides_of_content_eq_ok_iff hcontent hequals).mpr ⟨⟨hname, hfront⟩, hexpression, hback⟩

end

/-! ## Sources -/

theorem equation?_eq_some_iff {line : List Char} {number : Nat} {e : Equation} :
    equation? (line, number) = some e ↔
      e.line = number ∧ sides line = .ok (some (e.name.toList, e.expression.toList)) := by
  simp only [equation?]
  split
  next name expression hsides =>
    rw [hsides]
    constructor
    · intro h
      obtain rfl := Option.some.inj h
      simp
    · rintro ⟨rfl, h⟩
      obtain ⟨rfl, rfl⟩ := Prod.mk.inj (Option.some.inj (Except.ok.inj h))
      simp
  next hother =>
    refine iff_of_false (by simp) ?_
    rintro ⟨-, hsides⟩
    exact hother _ _ hsides

/-- An equation of a source is the one that its line holds. -/
theorem mem_equations_iff {ls : List (List Char)} {e : Equation} :
    e ∈ (ls.zipIdx 1).filterMap equation? ↔ 1 ≤ e.line ∧
      (ls.map sides)[e.line - 1]? = some (.ok (some (e.name.toList, e.expression.toList))) := by
  simp only [List.mem_filterMap, Prod.exists, equation?_eq_some_iff, List.getElem?_map,
    Option.map_eq_some_iff, List.mk_mem_zipIdx_iff_le_and_getElem?_sub]
  constructor
  · rintro ⟨line, number, ⟨hnumber, hline⟩, rfl, hsides⟩
    exact ⟨hnumber, line, hline, hsides⟩
  · rintro ⟨hnumber, line, hline, hsides⟩
    exact ⟨line, e.line, ⟨hnumber, hline⟩, rfl, hsides⟩

theorem pairwise_equations (ls : List (List Char)) :
    ((ls.zipIdx 1).filterMap equation?).Pairwise (·.line < ·.line) := by
  have hnumbers : (ls.zipIdx 1).Pairwise (·.2 < ·.2) := by
    rw [← List.pairwise_map, List.zipIdx_map_snd]
    exact List.pairwise_lt_range'
  refine hnumbers.filterMap equation? ?_
  rintro ⟨line, number⟩ ⟨line', number'⟩ hlt e he e' he'
  rw [(equation?_eq_some_iff.mp he).1, (equation?_eq_some_iff.mp he').1]
  exact hlt

/-- Lists of equations with increasing line numbers are equal if they have the same members. -/
theorem eq_of_mem_iff_of_pairwise {es es' : List Equation} (h : es.Pairwise (·.line < ·.line))
    (h' : es'.Pairwise (·.line < ·.line)) (hmem : ∀ e, e ∈ es ↔ e ∈ es') : es = es' := by
  have : Std.Irrefl fun e e' : Equation => e.line < e'.line := ⟨fun e => Nat.lt_irrefl e.line⟩
  have : Std.Antisymm fun e e' : Equation => e.line < e'.line :=
    ⟨fun e e' hlt hgt => absurd hgt (Nat.lt_asymm hlt)⟩
  exact h.eq_of_mem_iff h' hmem

/-- The lines hold the equations. Every other line is blank or holds a comment only. -/
structure Holds (ls : List (List Char)) (es : List Equation) : Prop where
  increasing : es.Pairwise (·.line < ·.line)
  inRange : ∀ e ∈ es, 1 ≤ e.line ∧ e.line ≤ ls.length
  isSide : ∀ e ∈ es, IsSide e.name.toList ∧ IsSide e.expression.toList
  noFeed : ∀ e ∈ es, '\n' ∉ e.name.toList ∧ '\n' ∉ e.expression.toList
  equation : ∀ e ∈ es, ∀ line ∈ ls[e.line - 1]?,
    HoldsEquation line e.name.toList e.expression.toList
  nothing : ∀ index, ∀ line ∈ ls[index]?, (∀ e ∈ es, e.line ≠ index + 1) → HoldsNothing line

section

variable {ls : List (List Char)} {es : List Equation}

theorem Holds.sides_eq (h : Holds ls es) {e : Equation} (he : e ∈ es) {line : List Char}
    (hline : ls[e.line - 1]? = some line) :
    sides line = .ok (some (e.name.toList, e.expression.toList)) := by
  obtain ⟨hname, hexpression⟩ := h.isSide e he
  exact sides_eq_ok_some_iff.mpr ⟨hname, hexpression, h.equation e he line hline⟩

/-- Each line is blank or holds one of the equations. -/
theorem Holds.sides_cases (h : Holds ls es) {index : Nat} {line : List Char}
    (hline : ls[index]? = some line) : sides line = .ok none ∨ ∃ e ∈ es, e.line = index + 1 ∧
      sides line = .ok (some (e.name.toList, e.expression.toList)) := by
  by_cases hexists : ∃ e ∈ es, e.line = index + 1
  · obtain ⟨e, he, hindex⟩ := hexists
    have hsame : index = e.line - 1 := by omega
    exact .inr ⟨e, he, hindex, h.sides_eq he (hsame ▸ hline)⟩
  · refine .inl (sides_eq_ok_none_iff.mpr (h.nothing index line hline ?_))
    exact fun e he hindex => hexists ⟨e, he, hindex⟩

theorem Holds.valid (h : Holds ls es) : ∀ line ∈ ls, Valid line := by
  intro line hmem
  obtain ⟨index, hline⟩ := List.mem_iff_getElem?.mp hmem
  rcases h.sides_cases hline with hsides | ⟨e, -, -, hsides⟩
  · exact ⟨_, hsides⟩
  · exact ⟨_, hsides⟩

theorem Holds.mem_iff (h : Holds ls es) (e : Equation) : e ∈ es ↔ 1 ≤ e.line ∧
    (ls.map sides)[e.line - 1]? = some (.ok (some (e.name.toList, e.expression.toList))) := by
  rw [List.getElem?_map, Option.map_eq_some_iff]
  constructor
  · intro he
    obtain ⟨hfirst, hlast⟩ := h.inRange e he
    have hline := List.getElem?_eq_getElem (show e.line - 1 < ls.length by omega)
    exact ⟨hfirst, _, hline, h.sides_eq he hline⟩
  · rintro ⟨hfirst, line, hline, hsides⟩
    rcases h.sides_cases hline with hnone | ⟨e', he', hindex, hsides'⟩
    · simp [hsides] at hnone
    · -- The line holds one equation only.
      have hnumber : e'.line = e.line := by omega
      have hsame : e = e' := by
        rw [hsides] at hsides'
        cases e
        cases e'
        simp_all [String.toList_inj]
      exact hsame ▸ he'

/-- Both sides of an equation are parts of its line. -/
theorem HoldsEquation.subset {line name expression : List Char}
    (h : HoldsEquation line name expression) : name ⊆ line ∧ expression ⊆ line := by
  obtain ⟨left, right, comment, hleft, hright, -, rfl⟩ := h
  constructor
  · exact fun c hc => List.mem_append_left _ (hleft.subset hc)
  · exact fun c hc => List.mem_append_right _
      (List.mem_cons_of_mem _ (List.mem_append_left _ (hright.subset hc)))

/-- Valid lines hold the equations that are read from them. -/
theorem holds_of_mem_iff (hfeed : ∀ line ∈ ls, '\n' ∉ line) (hvalid : ∀ line ∈ ls, Valid line)
    (hpairs : es.Pairwise (·.line < ·.line)) (hmem : ∀ e, e ∈ es ↔ 1 ≤ e.line ∧
      (ls.map sides)[e.line - 1]? = some (.ok (some (e.name.toList, e.expression.toList)))) :
    Holds ls es := by
  simp only [List.getElem?_map, Option.map_eq_some_iff] at hmem
  have hread (e : Equation) (he : e ∈ es) : 1 ≤ e.line ∧ ∃ line, ls[e.line - 1]? = some line ∧
      IsSide e.name.toList ∧ IsSide e.expression.toList ∧
        HoldsEquation line e.name.toList e.expression.toList := by
    obtain ⟨hfirst, line, hline, hsides⟩ := (hmem e).mp he
    exact ⟨hfirst, line, hline, sides_eq_ok_some_iff.mp hsides⟩
  refine ⟨hpairs, ?_, ?_, ?_, ?_, ?_⟩
  · intro e he
    obtain ⟨hfirst, line, hline, -⟩ := hread e he
    obtain ⟨hlt, -⟩ := List.getElem?_eq_some_iff.mp hline
    omega
  · intro e he
    obtain ⟨-, line, -, hname, hexpression, -⟩ := hread e he
    exact ⟨hname, hexpression⟩
  · intro e he
    obtain ⟨-, line, hline, -, -, hholds⟩ := hread e he
    have hline := hfeed line (List.mem_of_getElem? hline)
    exact ⟨fun hc => hline (hholds.subset.1 hc), fun hc => hline (hholds.subset.2 hc)⟩
  · intro e he line hline
    obtain ⟨-, line', hline', -, -, hholds⟩ := hread e he
    rw [Option.some.inj (hline.symm.trans hline')]
    exact hholds
  · intro index line hline hother
    obtain ⟨found, hsides⟩ := hvalid line (List.mem_of_getElem? hline)
    cases found with
    | none => exact sides_eq_ok_none_iff.mp hsides
    | some both =>
        have he := (hmem ⟨String.ofList both.1, String.ofList both.2, index + 1⟩).mpr
          ⟨Nat.le_add_left 1 index, line, hline, by simpa using hsides⟩
        exact absurd rfl (hother _ he)

theorem read_eq_ok_iff_of_consists {text : String} (h : Consists text.toList ls) :
    read text = .ok es ↔ Holds ls es := by
  have hsides := h.map_lines sides_concat_return
  have hvalid (ls : List (List Char)) : (∀ line ∈ ls, Valid line) ↔
      ∀ result ∈ ls.map sides, ∃ found, result = .ok found := by
    rw [List.forall_mem_map]
    rfl
  rw [read_eq_ok_iff, numberedLines, hvalid, hsides, ← hvalid]
  constructor
  · rintro ⟨hall, rfl⟩
    refine holds_of_mem_iff h.not_mem hall (pairwise_equations _) fun e => ?_
    rw [mem_equations_iff, hsides]
  · intro hholds
    refine ⟨hholds.valid, ?_⟩
    refine eq_of_mem_iff_of_pairwise (pairwise_equations _) hholds.increasing fun e => ?_
    rw [mem_equations_iff, hsides, hholds.mem_iff]

end

/-- The text renders the equations: it consists of lines that hold them. -/
def Renders (text : String) (es : List Equation) : Prop :=
  ∃ ls, Consists text.toList ls ∧ Holds ls es

/-- Equations are read from their renderings, in every layout, and from nothing else. -/
theorem read_inverts_rendering (text : String) (es : List Equation) :
    read text = .ok es ↔ Renders text es := by
  constructor
  · intro h
    have hlines := Consists.of_lines text.toList
    exact ⟨_, hlines, (read_eq_ok_iff_of_consists hlines).mp h⟩
  · rintro ⟨ls, hlines, hholds⟩
    exact (read_eq_ok_iff_of_consists hlines).mpr hholds

example : read "\u00a0O0 =\u2003I0 & I1\t# a = b\r\n#\n\nT1=~O0" =
    .ok [⟨"O0", "I0 & I1", 1⟩, ⟨"T1", "~O0", 4⟩] := by
  decide +kernel

end ArrayLogic.Source
