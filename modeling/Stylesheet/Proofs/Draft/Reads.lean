import Stylesheet.Proofs.Draft.Prose

/-!
This module contains texts that are read alone and leave nothing open: those of comments, of
at-rules, of rulesets and of the braces around groups. Such texts are read one after the other.
-/

namespace Stylesheet

namespace Draft

/--
Whether a text that stands alone is read as these records and leaves nothing open.
-/
structure Reads (t : Text) (records : List Record) : Prop where
  clear : (start.read t).1.IsClear
  records_eq : (start.read t).2 = records

theorem Reads.of_read {t : Text} {d : Draft} {records : List Record}
    (h : start.read t = (d, records)) (hd : d.IsClear) : Reads t records := by
  constructor
  . rw [h]
    exact hd
  . rw [h]

theorem Reads.append {a b : Text} {rs rs' : List Record} (ha : Reads a rs) (hb : Reads b rs') :
    Reads (a ++ b) (rs ++ rs') := by
  have hab := read_append_of_isClear ha.clear b
  constructor
  . exact hb.clear.of_alike hab.1
  . rw [hab.2, ha.records_eq, hb.records_eq]

theorem reads_blank {w : Text} (hw : Text.blank w) : Reads w [] := by
  have hplain : w.all (Text.isPlain start.scope.stops) := Text.all_isPlain_of_blank rfl hw
  rcases read_of_isSealed (d := start) rfl rfl (Text.isSealed_of_plain hplain) with
    ⟨escaped, hread⟩
  exact .of_read hread ⟨rfl, rfl, hw⟩

theorem reads_groupEnd : Reads ['}'] [.groupEnd] :=
  ⟨⟨rfl, rfl, rfl⟩, rfl⟩

theorem reads_comment {body : Text} (hclose : ¬['*', '/'] <:+: body)
    (hlast : body.getLast? ≠ some '/') :
    Reads ('/' :: '*' :: (body ++ ['*', '/'])) [.text ('/' :: '*' :: (body ++ ['*', '/']))] :=
  .of_read (read_comment rfl hclose hlast) ⟨rfl, rfl, rfl⟩

theorem read_append_cons (d : Draft) (a : Text) {c : Char} (hslash : c ≠ '/') (hstar : c ≠ '*')
    (b : Text) :
    d.read (a ++ c :: b) =
      ((((d.read a).1.step (Piece.ofChar c)).1.read b).1,
        (d.read a).2 ++ (((d.read a).1.step (Piece.ofChar c)).2.toList ++
          (((d.read a).1.step (Piece.ofChar c)).1.read b).2)) := by
  rw [read_append d fun e _ => Piece.not_joins_cons e b hslash hstar, read,
    Piece.ofText_cons (Piece.not_joins_of_ne b hslash hstar), run_cons]
  rfl

theorem read_atRule {p : Prose} (hp : p.IsSealed ['{', '}', ';']) :
    ∃ pending escaped, start.read ('@' :: p.text) =
      ({ reading := .code, scope := .atRule ('@' :: p.text), pending, escaped }, p.comments) := by
  rcases read_prose (d := (start.step (.mark .atSign)).1) rfl rfl hp with ⟨escaped, hread⟩
  refine ⟨['@'] ++ p.plain, escaped, ?_⟩
  have hsign := read_append_cons start [] (c := '@') (by decide) (by decide) p.text
  have hat : Piece.ofChar '@' = .mark .atSign := rfl
  simp only [read_nil, hat, hread] at hsign
  exact hsign

end Draft

namespace Prose.IsSealed

open Draft

theorem reads_statement {p : Prose} (hp : p.IsSealed ['{', '}', ';']) :
    Reads ('@' :: (p.text ++ [';'])) (p.comments ++ [.text ('@' :: (p.text ++ [';']))]) := by
  rcases read_atRule hp with ⟨pending, escaped, hread⟩
  have hend := read_append_cons start ('@' :: p.text) (c := ';') (by decide) (by decide) []
  rw [hread] at hend
  have htrim : Text.trim ('@' :: p.text ++ [';']) = '@' :: p.text ++ [';'] := by
    apply Text.trim_eq_self
    . intro c hc
      cases hc
      rfl
    . intro c hc
      rw [List.getLast?_concat] at hc
      cases hc
      rfl
  have hreads : Reads ('@' :: p.text ++ [';'])
      (p.comments ++ [.text (Text.trim ('@' :: p.text ++ [';']))]) :=
    .of_read hend ⟨rfl, rfl, rfl⟩
  rwa [htrim] at hreads

theorem reads_groupOpen {p : Prose} (hp : p.IsSealed ['{', '}', ';']) :
    Reads ('@' :: (p.text ++ ['{'])) (p.comments ++ [.text (Text.trim ('@' :: p.text))]) := by
  rcases read_atRule hp with ⟨pending, escaped, hread⟩
  have hend := read_append_cons start ('@' :: p.text) (c := '{') (by decide) (by decide) []
  rw [hread] at hend
  exact .of_read hend ⟨rfl, rfl, rfl⟩

theorem reads_rule {p q : Prose} (hp : p.IsSealed ['{', '}', '@']) (hq : q.IsSealed ['{', '}']) :
    Reads (p.text ++ '{' :: (q.text ++ ['}']))
      (p.comments ++ (q.comments ++ [.rule (Text.trim p.plain) (Text.trim q.plain)])) := by
  rcases read_prose (d := start) rfl rfl hp with ⟨escaped, hselectors⟩
  have hopen := read_append_cons start p.text (c := '{') (by decide) (by decide) (q.text ++ ['}'])
  have hstep : (start.read p.text).1.step (Piece.ofChar '{') =
      (⟨.code, .ruleset (Text.trim p.plain), [], false⟩, none) := by
    rw [hselectors]
    rfl
  rw [hstep, hselectors] at hopen
  rcases read_prose (d := ⟨.code, .ruleset (Text.trim p.plain), [], false⟩) rfl rfl hq with
    ⟨escaped', hdeclarations⟩
  have hclose := read_append_cons ⟨.code, .ruleset (Text.trim p.plain), [], false⟩ q.text
    (c := '}') (by decide) (by decide) []
  rw [hdeclarations] at hclose
  rw [hclose] at hopen
  exact .of_read hopen ⟨rfl, rfl, rfl⟩

/--
The closing brace of a block in an at-rule ends no ruleset, so what is in the block is passed over.
-/
theorem reads_groupClose {p : Prose} (hp : p.IsSealed ['{', '}', '@']) :
    Reads (p.text ++ ['}']) (p.comments ++ [.groupEnd]) := by
  rcases read_prose (d := start) rfl rfl hp with ⟨escaped, hread⟩
  have hend := read_append_cons start p.text (c := '}') (by decide) (by decide) []
  rw [hread] at hend
  exact .of_read hend ⟨rfl, rfl, rfl⟩

end Prose.IsSealed

namespace Draft

theorem reads_statement {t : Text} (ht : Text.isSealed ['{', '}', ';'] t) :
    Reads ('@' :: (t ++ [';'])) [.text ('@' :: (t ++ [';']))] :=
  Prose.IsSealed.reads_statement (p := .last t) ht

theorem reads_groupOpen {t : Text} (ht : Text.isSealed ['{', '}', ';'] t) :
    Reads ('@' :: (t ++ ['{'])) [.text (Text.trim ('@' :: t))] :=
  Prose.IsSealed.reads_groupOpen (p := .last t) ht

theorem reads_rule {s t : Text} (hs : Text.isSealed ['{', '}', '@'] s)
    (ht : Text.isSealed ['{', '}'] t) :
    Reads (s ++ '{' :: (t ++ ['}'])) [.rule (Text.trim s) (Text.trim t)] :=
  Prose.IsSealed.reads_rule (p := .last s) (q := .last t) hs ht

end Draft

end Stylesheet
