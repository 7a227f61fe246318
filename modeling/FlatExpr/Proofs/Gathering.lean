import FlatExpr.Proofs.Scanning
import FlatExpr.Proofs.Termination

/-!
# Gathered text

The text of a literal is gathered lexeme by lexeme. As long as each of them stands in the same
source directly after the one before (`Lexeme.Touches`), the run is a single stretch of that source,
and its text is cut out at the end; otherwise the texts are kept one by one
(`TextRun.foldl_push_isStretch_iff`). What the lexemes say is not looked at. Two sources that agree
around a place are still two, and their lexemes are never joined (`Lexeme.join?_eq_some_iff`).
Whichever way is taken, the text is that of the lexemes one after the other
(`TextRun.text_foldl_push`).

So the text of a literal is that of the lexemes between its marks, over every list of lexemes. One
kind of list stands out: an empty lexeme counts as the end of all lexemes, so that a literal with an
empty lexeme in it has no end (`Grammar.literal_of_encloses`).
-/

namespace FlatExpr

/-! ## Lexemes that touch -/

/-- The second lexeme stands in the source of the first, directly after it. -/
def Lexeme.Touches (l m : Lexeme) : Prop := l.source = m.source ∧ l.stop = m.start

namespace Stretch

variable {s : Stretch} {l : Lexeme}

/-- A stretch grows by a lexeme that follows it, and then ends where the lexeme does. -/
theorem extend?_of_isFollowedBy (h : s.isFollowedBy l = true) :
    ∃ s', s.extend? l = some s' ∧ s'.source = l.source ∧ s'.start = s.start ∧ s'.stop = l.stop :=
  ⟨_, dif_pos h, (isFollowedBy_iff.1 h).1, rfl, rfl⟩

/-- A stretch does not grow by any other lexeme. -/
theorem extend?_of_not_isFollowedBy (h : ¬s.isFollowedBy l = true) : s.extend? l = none :=
  dif_neg h

/-- As a lexeme, a stretch ends where it ends. -/
@[simp] theorem stop_toLexeme (s : Stretch) : s.toLexeme.stop = s.stop := s.start_add_byteLength

end Stretch

/-- Two lexemes are joined exactly if they touch, to the span from the start of the first to the end
of the second. -/
theorem Lexeme.join?_eq_some_iff {l m n : Lexeme} :
    l.join? m = some n ↔ l.Touches m ∧ ofSpan? l.source l.start m.stop = some n := by
  by_cases h : l.Touches m
  · obtain ⟨s, hs, hsource, hstart, hstop⟩ :=
      Stretch.extend?_of_isFollowedBy (s := .ofLexeme l) (Stretch.isFollowedBy_iff.2 h)
    have hspan : ofSpan? l.source l.start m.stop = some s.toLexeme := by
      refine ofSpan?_eq_some_iff.2 ⟨hsource.trans h.1.symm, hstart, ?_⟩
      rw [Stretch.stop_toLexeme, hstop]
    rw [join?, hs, hspan]
    exact ⟨fun hn => ⟨h, hn⟩, And.right⟩
  · have hnone : (Stretch.ofLexeme l).extend? m = none :=
      Stretch.extend?_of_not_isFollowedBy fun hf => h (Stretch.isFollowedBy_iff.1 hf)
    rw [join?, hnone]
    exact ⟨fun hn => (nomatch hn), fun hn => absurd hn.1 h⟩

/-! ## Runs of lexemes -/

namespace TextRun

/-- Gathering lexemes adds their texts one after the other. -/
theorem text_foldl_push (run : TextRun) (ls : List Lexeme) :
    (ls.foldl push run).text = run.text ++ (ls.map Lexeme.text).flatten := by
  induction ls generalizing run with
  | nil => rw [List.map_nil, List.flatten_nil, List.append_nil]; rfl
  | cons l ls ih =>
    rw [List.foldl_cons, ih, text_push, List.map_cons, List.flatten_cons, List.append_assoc]

/-- Texts that are kept one by one stay so. -/
theorem foldl_push_pieces (texts : List Text) (ls : List Lexeme) :
    ∃ texts', ls.foldl push (.pieces texts) = .pieces texts' := by
  induction ls generalizing texts with
  | nil => exact ⟨texts, rfl⟩
  | cons l ls ih => exact ih (l.text :: texts)

/-- The lexemes that come after a stretch are part of it as long as they touch. -/
theorem foldl_push_stretch_iff {s : Stretch} {l : Lexeme} {ls : List Lexeme}
    (hsource : s.source = l.source) (hstop : s.stop = l.stop) :
    (∃ s', ls.foldl push (.stretch s) = .stretch s') ↔ (l :: ls).IsChain Lexeme.Touches := by
  induction ls generalizing s l with
  | nil => exact ⟨fun _ => .singleton l, fun _ => ⟨s, rfl⟩⟩
  | cons m ls ih =>
    have hfollows : s.isFollowedBy m = true ↔ l.Touches m := by
      rw [Stretch.isFollowedBy_iff, hsource, hstop]
      exact Iff.rfl
    rw [List.foldl_cons, List.isChain_cons_cons, push]
    by_cases htouch : l.Touches m
    · -- the stretch goes on with the lexeme
      obtain ⟨s', hs', hsource', -, hstop'⟩ := Stretch.extend?_of_isFollowedBy (hfollows.2 htouch)
      rw [hs', ih hsource' hstop']
      exact ⟨fun h => ⟨htouch, h⟩, And.right⟩
    · -- another source, a gap or an overlap: from here on the texts are kept one by one
      rw [Stretch.extend?_of_not_isFollowedBy fun h => htouch (hfollows.1 h)]
      refine ⟨?_, fun h => absurd h.1 htouch⟩
      rintro ⟨s', hrun⟩
      obtain ⟨texts, hpieces⟩ := foldl_push_pieces [m.text, s.text] ls
      rw [hpieces] at hrun
      cases hrun

/-- Lexemes are gathered as a single stretch exactly when each touches the next. -/
theorem foldl_push_isStretch_iff (l : Lexeme) (ls : List Lexeme) :
    (∃ s, (l :: ls).foldl push .empty = .stretch s) ↔ (l :: ls).IsChain Lexeme.Touches :=
  foldl_push_stretch_iff rfl rfl

end TextRun

/-! ## Literals -/

namespace Grammar

open Rule Cursor

variable {g : Grammar} {q : Quote}

/-- The lexemes start with a quotation mark and go on, after some others, with the next mark of its
kind. -/
structure Encloses (g : Grammar) (ls : List Lexeme) (q : Quote) (opened : Lexeme)
    (content : List Lexeme) : Prop where
  /-- The mark that opens. -/
  opens : opened.toQuote g.dialect = some q
  /-- What comes before the next mark of the kind. -/
  inner : ∀ l ∈ content, l.toQuote g.dialect ≠ some q
  /-- The next mark. -/
  closes : ∃ closing rest, ls = opened :: (content ++ closing :: rest) ∧
    closing.toQuote g.dialect = some q

/-- A quotation mark is not empty. -/
theorem isTerminal_of_toQuote {l : Lexeme} (h : l.toQuote g.dialect = some q) :
    l.isTerminal = false := by
  have htext := ((Allowed.spelled?_eq_some_iff _ _ _).1 h).1
  rw [Lexeme.isTerminal, htext]
  cases q <;> rfl

/-- Up to the lexeme that closes a literal all lexemes are gathered, unless one is empty. -/
theorem gather_content {closes : Lexeme → Bool} {content : List Lexeme} {closing : Lexeme}
    (hcontent : ∀ l ∈ content, closes l = false) (hclosing : closes closing = true)
    (hne : closing.isTerminal = false) (run : TextRun) (behind rest : List Lexeme) :
    (gather closes run behind (content ++ closing :: rest)).1 =
      if content.any Lexeme.isTerminal then none else some (content.foldl TextRun.push run) := by
  induction content generalizing run behind with
  | nil =>
    rw [List.nil_append, gather, hne, hclosing]
    rfl
  | cons l content ih =>
    rw [List.forall_mem_cons] at hcontent
    rw [List.cons_append, gather, List.any_cons]
    cases hl : l.isTerminal with
    | true => rfl
    | false =>
      rw [hcontent.1, Bool.false_or, List.foldl_cons]
      exact ih hcontent.2 _ _

/-- The answer of the rule for literals, once the mark that opens is known. -/
theorem literal_of_toQuote {s : ReadState} (h : s.cursor.peekWord.toQuote g.dialect = some q) :
    (g.literal s).1 =
      match (gather (fun l => l.toQuote g.dialect == some q) .empty s.cursor.skipWord.behind
        s.cursor.skipWord.ahead).1 with
      | none => .error (.unterminatedLiteral q s.cursor.peekWord.start)
      | some run => .ok (.literal q run.text) := by
  rw [literal, next_bind]
  simp only [h]
  rw [bind_apply, textUpTo]
  rcases gather (fun l => l.toQuote g.dialect == some q) .empty s.cursor.skipWord.behind
    s.cursor.skipWord.ahead with ⟨_ | run, behind, ahead⟩
  · rfl
  · rfl

/-- A literal is the text of the lexemes between its marks, one after the other. If one of them is
empty, the literal is taken to be left open. -/
theorem literal_of_encloses {s : ReadState} {opened : Lexeme} {content : List Lexeme}
    (h : g.Encloses s.cursor.skipSpace.ahead q opened content) :
    (g.literal s).1 =
      if content.any Lexeme.isTerminal then .error (.unterminatedLiteral q opened.start)
      else .ok (.literal q (content.map Lexeme.text).flatten) := by
  obtain ⟨hopens, hinner, closing, rest, hahead, hclosing⟩ := h
  have hpeek : s.cursor.peekWord = opened := peek_of_ahead hahead
  have hskip : s.cursor.skipWord.ahead = content ++ closing :: rest := by
    rw [skipWord, skip_of_ahead hahead]
  have hcontent : ∀ l ∈ content, (l.toQuote g.dialect == some q) = false :=
    fun l hl => beq_eq_false_iff_ne.2 (hinner l hl)
  have hgather := gather_content hcontent (beq_iff_eq.2 hclosing)
    (isTerminal_of_toQuote hclosing) .empty s.cursor.skipWord.behind rest
  rw [literal_of_toQuote (by rw [hpeek]; exact hopens), hskip, hgather, hpeek]
  split_ifs
  · rfl
  · dsimp only
    rw [TextRun.text_foldl_push]
    rfl

/-- Where a literal is read, there are two marks with lexemes between them, none of them empty. -/
theorem encloses_of_literal {s : ReadState} {e : Expr} (hs : s.cursor.terminal.text = [])
    (h : (g.literal s).1 = .ok e) :
    ∃ q opened content, g.Encloses s.cursor.skipSpace.ahead q opened content ∧
      content.any Lexeme.isTerminal = false ∧
      e = .literal q (content.map Lexeme.text).flatten := by
  obtain ⟨q, value, t, hq, htext, -, -⟩ := literal_eq_ok_iff.1 (Prod.ext h rfl)
  -- what was seen is a mark and not the terminal, so there is a lexeme ahead
  obtain ⟨opened, ls, hahead⟩ : ∃ opened ls, s.cursor.skipSpace.ahead = opened :: ls := by
    refine List.exists_cons_of_ne_nil fun hnil => ?_
    have hpeek : s.cursor.peekWord.text = [] := by
      rw [peekWord, peek, hnil]
      exact (congrArg Lexeme.text (keeps_skipSpace s.cursor).terminal).trans hs
    have hne := isTerminal_of_toQuote hq
    rw [Lexeme.isTerminal, hpeek] at hne
    cases hne
  have hencloses : ∃ content, g.Encloses s.cursor.skipSpace.ahead q opened content := by
    have hskip : s.cursor.skipWord.ahead = ls := by rw [skipWord, skip_of_ahead hahead]
    unfold textUpTo at htext
    dsimp only at htext
    rw [hskip] at htext
    rcases hgather : gather (fun l => l.toQuote g.dialect == some q) .empty
      s.cursor.skipWord.behind ls with ⟨_ | run, behind, ahead⟩
    · rw [hgather] at htext
      cases htext
    · obtain ⟨content, closing, hls, -, hcontent, hclosing, -⟩ := gather_eq_some hgather
      refine ⟨content, ?_, fun l hl => beq_eq_false_iff_ne.1 (hcontent l hl), closing, ahead, ?_,
        beq_iff_eq.1 hclosing⟩
      · rw [← peek_of_ahead hahead]
        exact hq
      · rw [hahead, hls]
  obtain ⟨content, hencloses⟩ := hencloses
  have hliteral := literal_of_encloses hencloses
  rw [h] at hliteral
  split_ifs at hliteral with hany
  exact ⟨q, opened, content, hencloses, by simpa using hany, Except.ok.inj hliteral⟩

/-! ## Gathering is concatenation -/

/-- Two lexemes are joined exactly if the second stands in the source of the first, directly after
it, and lexemes are gathered as a single stretch exactly if each touches the next. Gathering them is
nevertheless writing their texts one after the other, wherever they come from. So at every place in
every list of lexemes, a literal between two marks is the text of the lexemes between them. If one
of these is empty, the literal is reported as unterminated, and there is no other literal. -/
theorem gather_concatenates (g : Grammar) :
    (∀ l m n : Lexeme, l.join? m = some n ↔
      l.Touches m ∧ Lexeme.ofSpan? l.source l.start m.stop = some n) ∧
    (∀ (l : Lexeme) (ls : List Lexeme),
      (∃ s, (l :: ls).foldl TextRun.push .empty = .stretch s) ↔
        (l :: ls).IsChain Lexeme.Touches) ∧
    (∀ ls : List Lexeme,
      (ls.foldl TextRun.push .empty).text = (ls.map Lexeme.text).flatten) ∧
    ∀ (lexemes : List Lexeme) (n depth : Nat) (s : ReadState),
      s = ⟨(Cursor.ofLexemes lexemes).seek n, depth⟩ →
      (∀ q opened content, g.Encloses s.cursor.skipSpace.ahead q opened content →
        (g.literal s).1 =
          if content.any Lexeme.isTerminal then .error (.unterminatedLiteral q opened.start)
          else .ok (.literal q (content.map Lexeme.text).flatten)) ∧
      ∀ e, (g.literal s).1 = .ok e →
        ∃ q opened content, g.Encloses s.cursor.skipSpace.ahead q opened content ∧
          content.any Lexeme.isTerminal = false ∧
          e = .literal q (content.map Lexeme.text).flatten := by
  refine ⟨fun l m n => Lexeme.join?_eq_some_iff, TextRun.foldl_push_isStretch_iff,
    TextRun.text_foldl_push .empty, ?_⟩
  rintro lexemes n depth s rfl
  refine ⟨fun q opened content h => literal_of_encloses h, ?_⟩
  intro e h
  exact encloses_of_literal (terminal_seek lexemes n) h

/-- `a` of `abc` and `b` of `zbq`, which is where the `b` of `abc` would be, are not joined, nor are
`a` and `b` of two sources that both say `ab`; but `a` and `b` of one source are. Gathered, they say
`ab` each time. And a literal behind white space, over lexemes that are each a whole text, with a
mark of another kind in it. -/
theorem gather_concatenates_mixed :
    ∃ a b b' b'' : Lexeme,
      Lexeme.ofSpan? ⟨1, "abc".toList⟩ 0 1 = some a ∧
      Lexeme.ofSpan? ⟨2, "zbq".toList⟩ 1 2 = some b ∧
      Lexeme.ofSpan? ⟨3, "abc".toList⟩ 1 2 = some b' ∧
      Lexeme.ofSpan? ⟨1, "abc".toList⟩ 1 2 = some b'' ∧
      a.join? b = none ∧ a.join? b' = none ∧ a.join? b'' = Lexeme.ofSpan? ⟨1, "abc".toList⟩ 0 2 ∧
      (∀ m ∈ [b, b', b''], ([a, m].foldl TextRun.push .empty).text = "ab".toList) ∧
      (¬∃ s, [a, b].foldl TextRun.push .empty = .stretch s) ∧
      (∃ s, [a, b''].foldl TextRun.push .empty = .stretch s) ∧
      (({} : Grammar).literal ⟨(Cursor.ofTexts ["+".toList, " ".toList, "'".toList, "a".toList,
        "\"".toList, " ".toList, "'".toList]).seek 1, 3⟩).1 =
          .ok (.literal .single "a\" ".toList) := by
  obtain ⟨hjoin, hstretch, htext, hliteral⟩ := gather_concatenates {}
  refine ⟨⟨⟨1, "abc".toList⟩, 0, ['a'], ['b', 'c'], [], rfl, rfl⟩,
    ⟨⟨2, "zbq".toList⟩, 1, ['b'], ['q'], ['z'], rfl, rfl⟩,
    ⟨⟨3, "abc".toList⟩, 1, ['b'], ['c'], ['a'], rfl, rfl⟩,
    ⟨⟨1, "abc".toList⟩, 1, ['b'], ['c'], ['a'], rfl, rfl⟩,
    by decide, by decide, by decide, by decide, ?_, ?_, ?_, ?_, ?_, ?_, ?_⟩
  · refine Option.eq_none_iff_forall_ne_some.2 fun n hn => ?_
    exact absurd ((hjoin _ _ n).1 hn).1.1 (by decide)
  · refine Option.eq_none_iff_forall_ne_some.2 fun n hn => ?_
    exact absurd ((hjoin _ _ n).1 hn).1.1 (by decide)
  · refine (hjoin _ _ ⟨⟨1, "abc".toList⟩, 0, ['a', 'b'], ['c'], [], rfl, rfl⟩).2 ⟨⟨rfl, rfl⟩, ?_⟩
    decide
  · intro m hm
    rw [htext]
    simp only [List.mem_cons, List.not_mem_nil, or_false] at hm
    rcases hm with rfl | rfl | rfl <;> rfl
  · rw [hstretch]
    intro hchain
    exact absurd (List.isChain_cons_cons.1 hchain).1.1 (by decide)
  · exact (hstretch _ _).2 (.cons_cons ⟨rfl, rfl⟩ (.singleton _))
  · refine (hliteral _ 1 3 _ rfl).1 .single (.ofText ⟨2, "'".toList⟩)
      [.ofText ⟨3, "a".toList⟩, .ofText ⟨4, "\"".toList⟩, .ofText ⟨5, " ".toList⟩]
      ⟨by decide, by decide, .ofText ⟨6, "'".toList⟩, [], rfl, by decide⟩

/-- Between two marks stand the lexemes of `ab` and an empty one, but the literal is not read. -/
theorem literal_stops_at_empty :
    ∃ opened content,
      ({} : Grammar).Encloses
        (Cursor.ofTexts ["'".toList, "a".toList, [], "b".toList, "'".toList]).skipSpace.ahead
        .single opened content ∧
      (content.map Lexeme.text).flatten = "ab".toList ∧
      (({} : Grammar).literal
        ⟨Cursor.ofTexts ["'".toList, "a".toList, [], "b".toList, "'".toList], 0⟩).1 ≠
          .ok (.literal .single "ab".toList) ∧
      (({} : Grammar).literal
        ⟨Cursor.ofTexts ["'".toList, "a".toList, [], "b".toList, "'".toList], 0⟩).1 =
          .error (.unterminatedLiteral .single 0) := by
  refine ⟨.ofText ⟨0, "'".toList⟩,
    [.ofText ⟨1, "a".toList⟩, .ofText ⟨2, []⟩, .ofText ⟨3, "b".toList⟩],
    ⟨by decide, by decide, .ofText ⟨4, "'".toList⟩, [], rfl, by decide⟩, rfl, ?_, ?_⟩
  all_goals decide +kernel

end Grammar

end FlatExpr
