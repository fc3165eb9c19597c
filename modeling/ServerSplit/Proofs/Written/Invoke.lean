import ServerSplit.Proofs.Js.Clauses
import ServerSplit.Sdk

/-! The function that a module gives out is read as a function, whatever stands behind it. -/
namespace ServerSplit.Sdk

open Js Js.Reader Js.Grammar
open Js.Rule hiding part

variable {b t u : Text}

/-! ### The text of a module, piece by piece

Each piece is given with the text behind it. -/

section Pieces

variable (u : Text)

def lookup : Text := "\n    const method = availableMethods.get(identifier);".toList ++ u

def condition : Text := " (typeof method !== \"function\")".toList ++ u

def message : Text :=
  '\x60' :: ("Unknown server function: ".toList ++ ("$\x7bidentifier\x7d".toList ++ '\x60' :: u))

def fault : Text :=
  "\n      ".toList ++ ("throw".toList ++ ([' '] ++ ("new ".toList ++
    ('E' :: ("rror".toList ++ '(' :: message (')' :: ';' :: u))))))

/-- The statement that refuses an identifier without a function. -/
def refusal : Text :=
  "\n    ".toList ++ ("if".toList ++ condition ([' '] ++ '\x7b' :: fault ("\n    ".toList ++ '\x7d' :: u)))

def call : Text := "\n    return method(...args);".toList ++ u

def signature : Text := "(identifier, args = [])".toList ++ u

/-- The function that is given out. -/
def invoke : Text :=
  "\n\n  ".toList ++ ("async function".toList ++ ([' '] ++ ("invokeApi".toList ++ signature ([' '] ++ '\x7b' ::
    lookup (refusal (call ("\n  ".toList ++ '\x7d' :: u)))))))

def result : Text := "\n\n  return invokeApi;".toList ++ u

end Pieces

set_option maxRecDepth 10000 in
theorem lookup_goes : Goes (part (.statement false)) (fresh (lookup u)) u := by
  intro n ts us
  refine ⟨n + 53, [.node .lexicalDeclaration [tok .mark "const" (n + 5) "\n    ",
    .node .variableDeclarator [tok .name "method" (n + 11) " ", tok .mark "=" (n + 18) " ",
      .node .call [.node .member [tok .name "availableMethods" (n + 20) " ", tok .mark "." (n + 36),
          tok .name "get" (n + 37)],
        .node .arguments [tok .mark "(" (n + 40), tok .name "identifier" (n + 41), tok .mark ")" (n + 51)]]],
    tok .mark ";" (n + 52)]], .part_freely (k := 200) fresh_blank fun _ => rfl, Tree.collectOf_eq_nil.1 rfl⟩

set_option maxRecDepth 10000 in
theorem call_goes : Goes (part (.statement false)) (fresh (call u)) u := by
  intro n ts us
  refine ⟨n + 28, [.node .returnStatement [tok .mark "return" (n + 5) "\n    ",
    .node .call [tok .name "method" (n + 12) " ",
      .node .arguments [tok .mark "(" (n + 18), .node .spread [tok .mark "..." (n + 19), tok .name "args" (n + 22)],
        tok .mark ")" (n + 26)]], tok .mark ";" (n + 27)]],
    .part_freely (k := 200) fresh_blank fun _ => rfl, Tree.collectOf_eq_nil.1 rfl⟩

theorem result_goes : Goes (part (.statement false)) (fresh (result u)) u := by
  intro n ts us
  refine ⟨n + 21, [.node .returnStatement [tok .mark "return" (n + 4) "\n\n  ", tok .name "invokeApi" (n + 11) " ",
      tok .mark ";" (n + 20)]],
    .part_freely (k := 200) fresh_blank fun _ => rfl, Tree.collectOf_eq_nil.1 rfl⟩

theorem condition_goes : Goes (part .parenthesized) (fresh (condition u)) u := by
  intro n ts us
  refine ⟨n + 31, [.node .parenthesized [tok .mark "(" (n + 1) " ",
      .node .binary [.node .unary [tok .mark "typeof" (n + 2), tok .name "method" (n + 9) " "],
        tok .mark "!==" (n + 16) " ",
        .node .string [tok .mark "\"" (n + 20) " ", tok .stringFragment "function" (n + 21), tok .mark "\"" (n + 29)]],
      tok .mark ")" (n + 30)]],
    .part_freely (k := 200) fresh_blank fun _ => rfl, Tree.collectOf_eq_nil.1 rfl⟩

theorem signature_goes : Goes parameters (fresh (signature u)) u := by
  intro n ts us
  let opening : Tree := tok .mark "(" n
  let name : Tree := tok .name "identifier" (n + 1)
  let comma : Tree := tok .mark "," (n + 11)
  let value (k : Nat) : Tree := .node .array [tok .mark "[" (k + 2) " ", tok .mark "]" (k + 3)]
  let assigned : Tree := .node .assignment [tok .name "args" (n + 13) " ", tok .mark "=" (n + 18) " ", value (n + 18)]
  let pattern : Tree := .node .assignmentPattern [tok .name "args" (n + 13) " ", tok .mark "=" (n + 18) " ", value (n + 18)]
  let s₁ : Reader := fresh (", args = [])".toList ++ u) (n + 11) [name, opening] (ts :: us)
  let s₂ : Reader := fresh (')' :: u) (n + 22) [assigned, comma, name, opening] (ts :: us)
  have hname : Comes item (fresh ("identifier, args = [])".toList ++ u) (n + 1) [opening] (ts :: us)) (some s₁) :=
    .right ⟨20, fun _ => rfl⟩ (.part_freely (k := 60) fresh_blank fun _ => rfl)
  have hassigned : Comes (expression {})
      (fresh (" args = [])".toList ++ u) (n + 12) [comma, name, opening] (ts :: us)) (some s₂) := by
    have hargs : Comes (part (.operand {})) (fresh (" args = [])".toList ++ u) (n + 12) [comma, name, opening] (ts :: us))
        (some (fresh (" = [])".toList ++ u) (n + 17) [tok .name "args" (n + 13) " ", comma, name, opening] (ts :: us))) :=
      .part_freely (k := 60) fresh_blank fun _ => rfl
    have hvalue : Comes (expression {}) (fresh (" [])".toList ++ u) (n + 19)
          [tok .mark "=" (n + 18) " ", tok .name "args" (n + 13) " "] ([comma, name, opening] :: ts :: us))
        (some (fresh (')' :: u) (n + 22)
          [value (n + 18), tok .mark "=" (n + 18) " ", tok .name "args" (n + 13) " "] ([comma, name, opening] :: ts :: us))) :=
      .part_freely (k := 60) fresh_blank fun _ => rfl
    have hnext := assignment_comes (x := {}) (isPlace_name "args" (n + 13) " ") rfl hvalue
    exact .part (.seq hargs (.many_next trivial rfl rfl fresh_blank hnext
      (.many_stop (continuation_misses rfl rfl rfl _ _ _))))
  have hitem : Comes (Grammar.comma ++ opt item) s₁ (some s₂) := by
    refine .seq (.step rfl) (.opt_some (.right ⟨20, fun _ => rfl⟩ hassigned))
  have hrow : Comes (many (Grammar.comma ++ opt item)) s₁ (some s₂) := by
    refine .many_next ?_ rfl rfl fresh_blank hitem (.many_stop (.seq_none (.step rfl)))
    simpa [Grammar.comma] using item_reads
  have hlist : Comes (mark "(" ++ separated Grammar.comma item ++ mark ")")
      (ready [] ("(identifier, args = [])".toList ++ u) n [] (ts :: us))
      (some (fresh u (n + 23) [tok .mark ")" (n + 22), assigned, comma, name, opening] (ts :: us))) :=
    .seq (.seq (.step rfl) (.seq (.opt_some hname) hrow)) (.step rfl)
  have harguments : Comes (part .arguments) (fresh (signature u) n ts us)
      (some (fresh u (n + 23) (.node .arguments [opening, name, comma, assigned, tok .mark ")" (n + 22)] :: ts) us)) :=
    .part (.node (t := ready [] ("(identifier, args = [])".toList ++ u) n ts us) rfl hlist rfl)
  refine ⟨n + 23, [.node .parameters [opening, name, comma, pattern, tok .mark ")" (n + 22)]],
    .seq harguments (.step rfl), Tree.collectOf_eq_nil.1 rfl⟩

/-! ### The function that is given out -/

theorem fault_goes : Goes (part (.statement false)) (fresh (fault u)) u := by
  have hmessage : Goes item (fresh (message (')' :: ';' :: u))) (')' :: ';' :: u) :=
    item_goes (b := []) nofun rfl rfl rfl (template_goes (by decide) (List.all_eq_true.1 rfl))
  have hmade := new_goes (b := [' ']) (w := "rror".toList) (d := 'E') rfl (by decide) (fun _ => rfl) hmessage
  have hmade := hmade.behind passesGap_operand (b := [' ']) (List.all_eq_true.1 rfl) rfl
  have hthrow := throwStatement_goes (b := "\n      ".toList) rfl hmade
  refine .behind passesGap_statement (b := "\n      ".toList) (List.all_eq_true.1 rfl) rfl (.part (.gap ?_))
  iterate 8 refine .right (fun _ _ _ => ⟨40, fun _ => rfl⟩) ?_
  exact .left (.seen (goes_read rfl) hthrow)

theorem refusal_goes : Goes (part (.statement false)) (fresh (refusal (call u))) (call u) := by
  have hstop := statements_stop (b := "\n    ".toList) (u := call u) (List.all_eq_true.1 rfl)
  have hclose := closingBrace_goes (b := "\n    ".toList) (o := false) (u := call u) (List.all_eq_true.1 rfl) rfl
  have hbody := block_goes (b := [' ']) (statements_next fault_goes hstop) hclose
  have hblock : Goes (part (.statement false)) (ready [' '] ('\x7b' :: fault ("\n    ".toList ++ '\x7d' :: call u)))
      (call u) := by
    refine braces_goes ?_ ?_ ?_ ?_ ?_ ?_ hbody
    all_goals exact fun _ _ _ => ⟨60, fun _ => rfl⟩
  have hblock := hblock.behind passesGap_statement (b := [' ']) (List.all_eq_true.1 rfl) rfl
  have hif := ifStatement_goes (b := "\n    ".toList) rfl condition_goes hblock (fun _ _ _ => ⟨20, fun _ => rfl⟩)
  refine .behind passesGap_statement (b := "\n    ".toList) (List.all_eq_true.1 rfl) rfl (.part (.gap ?_))
  iterate 2 refine .right (fun _ _ _ => ⟨40, fun _ => rfl⟩) ?_
  exact .left (.seen (goes_read rfl) hif)

theorem invoke_goes : Goes (part (.statement false)) (fresh (invoke (result u))) (result u) := by
  have hstop := statements_stop (b := "\n  ".toList) (u := result u) (List.all_eq_true.1 rfl)
  have hstatements := statements_next lookup_goes (statements_next refusal_goes (statements_next call_goes hstop))
  have hclose := closingBrace_goes (b := "\n  ".toList) (o := true) (u := result u) (List.all_eq_true.1 rfl) rfl
  have hbody := (block_goes (b := [' ']) hstatements hclose).behind passesGap_body (b := [' '])
    (List.all_eq_true.1 rfl) rfl
  have hname {t : Text} : Goes anyName (fresh ([' '] ++ ("invokeApi".toList ++ signature t))) (signature t) :=
    (goes_read (w := "invokeApi".toList) rfl).behind passesGap_read (List.all_eq_true.1 rfl) rfl
  have hform := functionForm_makes (b := "\n\n  ".toList) (r := .statement) (by decide) opensFunction_async
    (fun _ _ _ => ⟨20, fun _ => rfl⟩) hname signature_goes hbody
  refine .behind passesGap_statement (b := "\n\n  ".toList) (List.all_eq_true.1 rfl) rfl (.part (.gap ?_))
  iterate 15 refine .right (fun _ _ _ => ⟨40, fun _ => rfl⟩) ?_
  exact .left (functionStatement_goes startsFunction_async hform (fun _ _ _ => ⟨40, fun _ => rfl⟩))

end ServerSplit.Sdk
