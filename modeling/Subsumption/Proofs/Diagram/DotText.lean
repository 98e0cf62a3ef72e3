import Subsumption.Proofs.SelfDelimiting
import Subsumption.Taxonomy.Diagram
/-!
A diagram is read off its dot text.  A label ends at the quote written to close it,
whatever the name is, and an index ends at a space, so each line shows what it is for
and where it ends.
-/

namespace Subsumption

namespace Diagram

variable {a b : Atom} {c d : Char} {cs ds rest rest' : List Char} {m n : Nat}

/-- What stands behind the first quote that is not escaped.  A backslash escapes the
character behind it. -/
def afterQuote? : List Char → Option (List Char)
  | [] => none
  | '"' :: rest => some rest
  | '\\' :: _ :: rest => afterQuote? rest
  | _ :: rest => afterQuote? rest

/-- The character that an escaped letter stands for. -/
def escapedBy : Char → Char
  | 'l' => '\n'
  | c => c

/-- The two ways in which a character is written in a label. -/
inductive Written (c : Char) : List Char → Prop
  | escaped {letter : Char} : escapedBy letter = c → Written c ['\\', letter]
  | plain : c ≠ '"' → c ≠ '\\' → Written c [c]

theorem written_labelChar (c : Char) : Written c (labelChar c) := by
  unfold labelChar
  split
  case h_4 hquote hbackslash _ => exact .plain hquote hbackslash
  all_goals exact .escaped rfl

/-- What is written for a character holds no quote that is not escaped. -/
theorem Written.afterQuote?_append (h : Written c cs) (rest : List Char) :
    afterQuote? (cs ++ rest) = afterQuote? rest := by
  cases h with
  | escaped _ => rfl
  | plain hquote hbackslash =>
    rw [List.singleton_append, afterQuote?]
    · exact hquote
    · exact fun _ _ hc _ => hbackslash hc

theorem Written.append_ne (h : Written c cs) : cs ++ rest ≠ '"' :: rest' := by
  cases h with
  | escaped _ => exact fun hsame => absurd (List.cons.inj hsame).1 (by decide)
  | plain hquote _ => exact fun hsame => hquote (List.cons.inj hsame).1

/-- The first character tells an escape from a plain character, and so how far to read. -/
theorem Written.append_inj (h : Written c cs) (h' : Written d ds)
    (hsame : cs ++ rest = ds ++ rest') : c = d ∧ rest = rest' := by
  cases h with
  | @escaped letter hletter =>
    cases h' with
    | @escaped letter' hletter' =>
      obtain ⟨rfl, hrest⟩ : letter = letter' ∧ rest = rest' := by simpa using hsame
      exact ⟨hletter.symm.trans hletter', hrest⟩
    | plain _ hbackslash => exact absurd (List.cons.inj hsame).1.symm hbackslash
  | plain _ hbackslash =>
    cases h' with
    | escaped _ => exact absurd (List.cons.inj hsame).1 hbackslash
    | plain _ _ => exact List.cons.inj hsame

/-- A label ends at the quote behind it. -/
theorem afterQuote?_label_append (a : Atom) (rest : List Char) :
    afterQuote? ((label a).toList ++ '"' :: rest) = some rest := by
  rw [label, String.toList_ofList]
  induction a.name.toList with
  | nil => rfl
  | cons c cs ih =>
    rw [List.flatMap_cons, List.append_assoc, (written_labelChar c).afterQuote?_append,
      ih]

example : label ⟨"p\" ]\n    1 [ label = \"q"⟩ = "p\\\" ]\\l    1 [ label = \\\"q" := by decide

theorem label_append_quote_inj
    (h : (label a).toList ++ '"' :: rest = (label b).toList ++ '"' :: rest') :
    a = b ∧ rest = rest' := by
  rw [label, label, String.toList_ofList, String.toList_ofList] at h
  have hchar (c : Char) : Delimited labelChar (fun _ => True) (fun _ => True) c :=
    fun d _ _ _ _ _ => (written_labelChar c).append_inj (written_labelChar d)
  obtain ⟨hname, hrest⟩ := flatMap_append_mark_inj (fun c _ => hchar c)
    (fun _ _ => trivial) (fun _ _ => trivial) (fun c _ _ => (written_labelChar c).append_ne) h
  cases a
  cases b
  exact ⟨congrArg Atom.mk (String.toList_inj.1 hname), hrest⟩

/-- An index in decimal ends at the space behind it. -/
theorem repr_append_space_inj
    (h : (Nat.repr m).toList ++ ' ' :: rest = (Nat.repr n).toList ++ ' ' :: rest') :
    m = n ∧ rest = rest' := by
  have hdigits (n : Nat) : ∀ c ∈ (Nat.repr n).toList, c.isDigit = true := fun c hc => by
    rw [Nat.toList_repr] at hc
    exact Nat.isDigit_of_mem_toDigits (by decide) (by decide) hc
  have hspace (rest : List Char) : ∀ c ∈ (' ' :: rest).head?, c.isDigit = false := by
    rintro c ⟨⟩
    decide
  obtain ⟨hsame, hrest⟩ := word_append_inj (hdigits m) (hdigits n) (hspace rest) (hspace rest') h
  rw [Nat.toList_repr, Nat.toList_repr] at hsame
  have hvalue := congrArg (fun digits => Nat.ofDigitChars 10 digits 0) hsame
  rw [Nat.ofDigitChars_ten_toDigits, Nat.ofDigitChars_ten_toDigits] at hvalue
  exact ⟨hvalue, (List.cons.inj hrest).2⟩

/-- A line of the text, for a node with its index or for an edge. -/
inductive Line where
  | node (index : Nat) (a : Atom)
  | edge (edge : Nat × Nat)

namespace Line

def text : Line → String
  | node index a => nodeLine index a
  | edge e => edgeLine e

theorem toList_text_node (index : Nat) (a : Atom) :
    (node index a).text.toList = "    ".toList ++ ((Nat.repr index).toList ++
      ' ' :: ("[ label = \"".toList ++ ((label a).toList ++ '"' :: " ]\n".toList))) := by
  simp [text, nodeLine]

theorem toList_text_edge (e : Nat × Nat) :
    (edge e).text.toList = "    ".toList ++ ((Nat.repr e.1).toList ++
      ' ' :: ("-> ".toList ++ ((Nat.repr e.2).toList ++ ' ' :: "[ ]\n".toList))) := by
  simp [text, edgeLine]

theorem append_ne (line : Line) : line.text.toList ++ rest ≠ '\x7d' :: rest' := by
  cases line with
  | node index a =>
    rw [toList_text_node]
    exact fun h => absurd (List.cons.inj h).1 (by decide)
  | edge e =>
    rw [toList_text_edge]
    exact fun h => absurd (List.cons.inj h).1 (by decide)

/-- Behind the first index stands a bracket or an arrow, and behind that the label or
the other index. -/
theorem delimited (line : Line) :
    Delimited (fun line => line.text.toList) (fun _ => True) (fun _ => True) line := by
  intro line' _ rest rest' _ _ h
  beta_reduce at h
  cases line with
  | node m a =>
    cases line' with
    | node n b =>
      simp only [toList_text_node, List.append_assoc, List.cons_append] at h
      obtain ⟨rfl, hafter⟩ := repr_append_space_inj (List.append_cancel_left h)
      obtain ⟨rfl, hend⟩ := label_append_quote_inj (List.append_cancel_left hafter)
      exact ⟨rfl, List.append_cancel_left hend⟩
    | edge e =>
      simp only [toList_text_node, toList_text_edge, List.append_assoc, List.cons_append] at h
      obtain ⟨-, hafter⟩ := repr_append_space_inj (List.append_cancel_left h)
      exact absurd (List.cons.inj hafter).1 (by decide)
  | edge e =>
    cases line' with
    | node n b =>
      simp only [toList_text_node, toList_text_edge, List.append_assoc, List.cons_append] at h
      obtain ⟨-, hafter⟩ := repr_append_space_inj (List.append_cancel_left h)
      exact absurd (List.cons.inj hafter).1 (by decide)
    | edge e' =>
      simp only [toList_text_edge, List.append_assoc, List.cons_append] at h
      obtain ⟨hfirst, hafter⟩ := repr_append_space_inj (List.append_cancel_left h)
      obtain ⟨hsecond, hend⟩ := repr_append_space_inj (List.append_cancel_left hafter)
      exact ⟨congrArg edge (Prod.ext hfirst hsecond), List.append_cancel_left hend⟩

end Line

def lines (d : Diagram) : List Line :=
  d.nodes.zipIdx.map (fun (a, index) => .node index a) ++ d.edges.map .edge

theorem dot_eq_join_lines (d : Diagram) :
    d.dot = "digraph \x7b\n" ++ String.join (d.lines.map Line.text) ++ "\x7d\n" := by
  apply String.toList_inj.1
  simp [dot, lines, Line.text, String.toList_join, List.flatMap_map, Function.comp_def]

theorem filterMap_lines_node (d : Diagram) :
    d.lines.filterMap (fun | .node _ a => some a | .edge _ => none) = d.nodes := by
  simp [lines, List.filterMap_append, List.filterMap_map]

theorem filterMap_lines_edge (d : Diagram) :
    d.lines.filterMap (fun | .node _ _ => none | .edge e => some e) = d.edges := by
  simp [lines, List.filterMap_append, List.filterMap_map]

theorem eq_of_lines_eq {d d' : Diagram} (h : d.lines = d'.lines) : d = d' := by
  have hnodes := d.filterMap_lines_node
  have hedges := d.filterMap_lines_edge
  rw [h, filterMap_lines_node] at hnodes
  rw [h, filterMap_lines_edge] at hedges
  cases d
  cases d'
  cases hnodes
  cases hedges
  rfl

/-- Diagrams with the same text are the same. -/
theorem eq_of_dot_eq {d d' : Diagram} (h : d.dot = d'.dot) : d = d' := by
  have htext : d.lines.flatMap (fun line => line.text.toList) ++ '\x7d' :: ['\n'] =
      d'.lines.flatMap (fun line => line.text.toList) ++ '\x7d' :: ['\n'] := by
    rw [dot_eq_join_lines, dot_eq_join_lines] at h
    simpa [String.toList_join, List.flatMap_map] using congrArg String.toList h
  obtain ⟨hlines, -⟩ := flatMap_append_mark_inj (fun line _ => line.delimited)
    (fun _ _ => trivial) (fun _ _ => trivial) (fun line _ _ => line.append_ne) htext
  exact eq_of_lines_eq hlines

end Diagram

end Subsumption
