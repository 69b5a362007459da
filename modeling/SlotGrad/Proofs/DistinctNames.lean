import Mathlib.Data.List.DropRight
import Mathlib.Data.List.Nodup
import SlotGrad.Kernel.Builtin
import SlotGrad.Proofs.NamingRules

/-!
# Generated names are distinct

A generated name is a word and a number, with the number of a layer between them if it is the
name of an argument.  All of this can be read back from the text: the words that are used end in
no digit and have no underscore, so the number at the end is what follows the last other
character, and names of arguments alone are marked.  The parts in turn determine the node, since
whatever is numbered has its own number among the nodes of its word.

## Main definitions

* `PlainWord` — a word after which a number can be read back.
* `GeneratedName`, `GeneratedName.text` — the parts of a generated name, and the name.
* `Node.word` — the word under which a node is numbered.
* `CalledBy` — which parts the name of a node is made of.

## Main results

* `GeneratedName.text_inj` — the parts are read back from the text.
* `CalledBy.place_unique` — the parts of two nodes differ.
* `generated_names_distinct` — **generated names are distinct.**
-/

namespace SlotGrad

/-! ### Numbers after words -/

/-- A text does not end in a digit. -/
def EndsPlain (s : String) : Prop := s.toList.rdropWhile Char.isDigit = s.toList

/-- Without the digits at the end of a number after a text, the text is left. -/
theorem rdropWhile_numbered {s : String} (hs : EndsPlain s) (n : Nat) :
    (s ++ toString n).toList.rdropWhile Char.isDigit = s.toList := by
  have hdigits : ∀ c ∈ (toString n).toList.reverse, c.isDigit = true := by
    intro c hc
    rw [Nat.toString_eq_ofList_toDigits, String.toList_ofList, List.mem_reverse] at hc
    exact Nat.isDigit_of_mem_toDigits (by decide) (by decide) hc
  rw [String.toList_append, List.rdropWhile, List.reverse_append,
    List.dropWhile_append_of_pos hdigits]
  exact hs

theorem toString_nat_inj {m n : Nat} (h : toString m = toString n) : m = n := by
  rw [Nat.toString_eq_ofList_toDigits, Nat.toString_eq_ofList_toDigits, String.ofList_inj] at h
  calc m = Nat.ofDigitChars 10 (Nat.toDigits 10 m) 0 := Nat.ofDigitChars_ten_toDigits.symm
    _ = Nat.ofDigitChars 10 (Nat.toDigits 10 n) 0 := by rw [h]
    _ = n := Nat.ofDigitChars_ten_toDigits

/-- Text and number are read back from a number after a text. -/
theorem numbered_inj {s t : String} (hs : EndsPlain s) (ht : EndsPlain t) {m n : Nat}
    (h : s ++ toString m = t ++ toString n) : s = t ∧ m = n := by
  have hst : s = t := by
    rw [← String.toList_inj, ← rdropWhile_numbered hs m, h, rdropWhile_numbered ht]
  subst hst
  exact ⟨rfl, toString_nat_inj ((String.append_right_inj s).mp h)⟩

/-- A word after which numbers and underscores can be read back. -/
structure PlainWord (w : String) : Prop where
  /-- It does not end in a digit. -/
  ends : EndsPlain w
  /-- It has no underscore. -/
  unmarked : '_' ∉ w.toList

/-- The parts of a generated name. -/
@[ext]
structure GeneratedName where
  /-- The op or the kind that the name begins with. -/
  word : String
  /-- The number of the layer, in a name of one of its arguments. -/
  layer : Option Nat
  /-- The number at the end. -/
  number : Nat

namespace GeneratedName

/-- What precedes the number at the end of a name. -/
def stem (g : GeneratedName) : String :=
  match g.layer with
  | none => g.word
  | some m => g.word ++ toString m ++ "_p"

/-- The text of a name. -/
def text (g : GeneratedName) : String := g.stem ++ toString g.number

variable {g g' : GeneratedName}

theorem endsPlain_stem (h : PlainWord g.word) : EndsPlain g.stem := by
  unfold stem
  split
  · exact h.ends
  · have hlast : "_p".toList = ['_'] ++ ['p'] := rfl
    unfold EndsPlain
    rw [String.toList_append, hlast, ← List.append_assoc]
    exact List.rdropWhile_concat_neg _ _ _ (by decide)

/-- Only names of arguments are marked. -/
theorem mark_mem_stem_iff (h : PlainWord g.word) : '_' ∈ g.stem.toList ↔ g.layer ≠ none := by
  unfold stem
  split
  · rename_i hlayer
    simp [hlayer, h.unmarked]
  · rename_i m hlayer
    simp [hlayer]

theorem stem_inj (h : PlainWord g.word) (h' : PlainWord g'.word) (he : g.stem = g'.stem) :
    g.word = g'.word ∧ g.layer = g'.layer := by
  -- The mark tells which of the two forms both stems have.
  have hmark := mark_mem_stem_iff h
  rw [he, mark_mem_stem_iff h'] at hmark
  unfold stem at he
  cases hlayer : g.layer with
  | none =>
    have hlayer' : g'.layer = none := by simpa [hlayer] using hmark
    rw [hlayer, hlayer'] at he
    exact ⟨he, hlayer'.symm⟩
  | some m =>
    obtain ⟨m', hlayer'⟩ : ∃ m', g'.layer = some m' :=
      Option.ne_none_iff_exists'.mp (by simpa [hlayer] using hmark)
    rw [hlayer, hlayer'] at he
    obtain ⟨hword, rfl⟩ := numbered_inj h.ends h'.ends ((String.append_left_inj _).mp he)
    exact ⟨hword, hlayer'.symm⟩

/-- **The parts of a name are read back from its text.** -/
theorem text_inj (h : PlainWord g.word) (h' : PlainWord g'.word) (he : g.text = g'.text) :
    g = g' := by
  obtain ⟨hstem, hnumber⟩ := numbered_inj (endsPlain_stem h) (endsPlain_stem h') he
  obtain ⟨hword, hlayer⟩ := stem_inj h h' hstem
  exact GeneratedName.ext hword hlayer hnumber

end GeneratedName

variable {F : Type}

/-! ### Numbers among nodes -/

section

variable {nodes : List (Node F)} {j k : Nat} {m n : Node F}

theorem countUpTo_lt {p : Node F → Bool} (hn : nodes[k]? = some n) (hp : p n = true) (h : j < k) :
    countUpTo nodes j p < countUpTo nodes k p := by
  have hle : countUpTo nodes j p ≤ (nodes.take k).countP p :=
    (List.take_sublist_take_left h).countP_le
  rw [Naming.countP_take_succ hn, if_pos hp]
  omega

/-- What is counted has its own number. -/
theorem countUpTo_inj {p : Node F → Bool} (hm : nodes[j]? = some m) (hn : nodes[k]? = some n)
    (hpm : p m = true) (hpn : p n = true) (h : countUpTo nodes j p = countUpTo nodes k p) :
    j = k := by
  rcases Nat.lt_trichotomy j k with hlt | heq | hgt
  · exact absurd h (Nat.ne_of_lt (countUpTo_lt hn hpn hlt))
  · exact heq
  · exact absurd h (Nat.ne_of_gt (countUpTo_lt hm hpm hgt))

theorem countUpTo_congr {p q : Node F → Bool} (h : ∀ n ∈ nodes, p n = q n) (k : Nat) :
    countUpTo nodes k p = countUpTo nodes k q :=
  List.countP_congr fun n hn => by rw [h n (List.mem_of_mem_take hn)]

/-- The word under which a node is numbered. -/
def Node.word (n : Node F) : String :=
  match n.role with
  | .input => "input"
  | .param _ => "param"
  | .layer a => a.op.name

theorem Node.word_of_input (h : n.role = .input) : n.word = "input" := by
  unfold word
  rw [h]

theorem Node.word_of_param {p : Learnable F} (h : n.role = .param p) : n.word = "param" := by
  unfold word
  rw [h]

theorem Node.word_of_layer {a : Application F} (h : n.role = .layer a) : n.word = a.op.name := by
  unfold word
  rw [h]

/-- The number of a node among the nodes of its word. -/
def numberOf (nodes : List (Node F)) (place : Nat) (n : Node F) : Nat :=
  countUpTo nodes place fun m => m.word == n.word

theorem numberOf_inj (hm : nodes[j]? = some m) (hn : nodes[k]? = some n) (hword : m.word = n.word)
    (h : numberOf nodes j m = numberOf nodes k n) : j = k := by
  unfold numberOf at h
  rw [hword] at h
  exact countUpTo_inj (p := fun m => m.word == n.word) hm hn (beq_iff_eq.mpr hword)
    (beq_self_eq_true _) h

/-- The node at a place is called by the parts of a name: it has its number, or it is an argument of
a layer that has its number. -/
inductive CalledBy (nodes : List (Node F)) (place : Nat) : GeneratedName → Prop where
  /-- A node is numbered among the nodes of its word. -/
  | numbered {n : Node F} : nodes[place]? = some n →
    CalledBy nodes place ⟨n.word, none, numberOf nodes place n⟩
  /-- A parameter is called after a layer. -/
  | argument {n m : Node F} {j i : Nat} {a : Application F} : nodes[place]? = some n →
    nodes[j]? = some m → m.role = .layer a → a.args.findIdx? (Value.isParameter n.id) = some i →
    CalledBy nodes place ⟨m.word, some (numberOf nodes j m), i + 1⟩

/-- At one place of an argument list there is one parameter. -/
theorem isParameter_unique {v : Value F} {id id' : Nat} (h : v.isParameter id = true)
    (h' : v.isParameter id' = true) : id = id' := by
  unfold Value.isParameter at h h'
  cases hv : v.node? with
  | none => simp [hv] at h
  | some g =>
    simp only [hv, Option.any_some, Bool.and_eq_true, beq_iff_eq] at h h'
    exact h.2.symm.trans h'.2

/-- The parts of a name determine the node. -/
theorem CalledBy.place_unique (hd : (nodes.map Node.id).Nodup) {g g' : GeneratedName}
    (h : CalledBy nodes j g) (h' : CalledBy nodes k g') (he : g = g') : j = k := by
  cases h with
  | numbered hm =>
    cases h' with
    | numbered hn =>
      obtain ⟨hword, -, hnumber⟩ := GeneratedName.ext_iff.mp he
      exact numberOf_inj hm hn hword hnumber
    | argument => cases congrArg GeneratedName.layer he
  | argument hm hl hrole hi =>
    cases h' with
    | numbered => cases congrArg GeneratedName.layer he
    | argument hn hl' hrole' hi' =>
      obtain ⟨hword, hlayer, hnumber⟩ := GeneratedName.ext_iff.mp he
      -- The same op with the same number is one layer; one place in it is one parameter.
      obtain rfl := numberOf_inj hl hl' hword (Option.some.inj hlayer)
      cases hl.symm.trans hl'
      cases hrole.symm.trans hrole'
      obtain rfl := Nat.succ.inj hnumber
      obtain ⟨_, hv, -⟩ := List.findIdx?_eq_some_iff_getElem.mp hi
      obtain ⟨_, hv', -⟩ := List.findIdx?_eq_some_iff_getElem.mp hi'
      exact SlotGrad.place_unique hd hm hn (isParameter_unique hv hv')

end

/-! ### Names of unnamed nodes -/

/-- A word that names an op apart from the kinds of nodes. -/
structure OpWord (w : String) : Prop extends PlainWord w where
  /-- It is not what inputs are called. -/
  ne_input : w ≠ "input"
  /-- It is not what parameters are called. -/
  ne_param : w ≠ "param"

theorem opWord_builtin (b : Builtin) : OpWord b.name := by
  cases b <;> exact ⟨⟨rfl, by decide⟩, by decide, by decide⟩

section

variable {nodes : List (Node F)} {k : Nat} {n : Node F}

theorem Node.runs_eq {op : String} (hop : OpWord op) : n.runs op = (n.word == op) := by
  unfold runs application?
  cases hrole : n.role with
  | input =>
    rw [word_of_input hrole]
    exact (beq_eq_false_iff_ne.mpr hop.ne_input.symm).symm
  | param p =>
    rw [word_of_param hrole]
    exact (beq_eq_false_iff_ne.mpr hop.ne_param.symm).symm
  | layer a =>
    rw [word_of_layer hrole]
    rfl

variable (hwords : ∀ n ∈ nodes, ∀ a, n.role = .layer a → OpWord a.op.name)
  (hunnamed : ∀ n ∈ nodes, n.label.name = none)

include hwords

theorem plainWord_word (hn : n ∈ nodes) : PlainWord n.word := by
  cases hrole : n.role with
  | input => exact Node.word_of_input hrole ▸ ⟨rfl, by decide⟩
  | param p => exact Node.word_of_param hrole ▸ ⟨rfl, by decide⟩
  | layer a => exact Node.word_of_layer hrole ▸ (hwords n hn a hrole).toPlainWord

theorem isParam_eq (hn : n ∈ nodes) : n.isParam = (n.word == "param") := by
  unfold Node.isParam Node.kind
  cases hrole : n.role with
  | input => rw [Node.word_of_input hrole]; rfl
  | param p => rw [Node.word_of_param hrole]; rfl
  | layer a =>
    rw [Node.word_of_layer hrole]
    exact (beq_eq_false_iff_ne.mpr (hwords n hn a hrole).ne_param).symm

theorem ruledLayer_eq (hn : nodes[k]? = some n) {a : Application F} (hrole : n.role = .layer a) :
    NameRule.layer nodes k a.op.name = n.word ++ toString (numberOf nodes k n) := by
  have hop : OpWord a.op.name := hwords n (List.mem_of_getElem? hn) a hrole
  rw [NameRule.layer, numberOf, Node.word_of_layer hrole,
    countUpTo_congr fun m _ => m.runs_eq hop]

theorem ruledParam_eq {p : Learnable F} (hrole : n.role = .param p) :
    NameRule.param nodes k = n.word ++ toString (numberOf nodes k n) := by
  rw [NameRule.param, numberOf, Node.word_of_param hrole,
    countUpTo_congr fun m hm => isParam_eq hwords hm]

include hunnamed

theorem isUnnamedInput_eq (hn : n ∈ nodes) : n.isUnnamedInput = (n.word == "input") := by
  unfold Node.isUnnamedInput Node.kind
  rw [hunnamed n hn]
  cases hrole : n.role with
  | input => rw [Node.word_of_input hrole]; rfl
  | param p => rw [Node.word_of_param hrole]; rfl
  | layer a =>
    rw [Node.word_of_layer hrole]
    exact (beq_eq_false_iff_ne.mpr (hwords n hn a hrole).ne_input).symm

theorem ruledInput_eq (hrole : n.role = .input) :
    NameRule.input nodes k = n.word ++ toString (numberOf nodes k n) := by
  rw [NameRule.input, numberOf, Node.word_of_input hrole,
    countUpTo_congr fun m hm => isUnnamedInput_eq hwords hunnamed hm]

/-- Without explicit names, the name of a node is the text of what it is called by. -/
theorem exists_calledBy (hn : nodes[k]? = some n) :
    ∃ g, CalledBy nodes k g ∧ PlainWord g.word ∧ ruledName nodes (n, k) = g.text := by
  have hmem : n ∈ nodes := List.mem_of_getElem? hn
  have hplain : PlainWord n.word := plainWord_word hwords hmem
  unfold ruledName
  dsimp only
  rw [hunnamed n hmem]
  cases hrole : n.role with
  | input => exact ⟨_, .numbered hn, hplain, ruledInput_eq hwords hunnamed hrole⟩
  | layer a => exact ⟨_, .numbered hn, hplain, ruledLayer_eq hwords hn hrole⟩
  | param p =>
    dsimp only
    cases hfound : nodes.zipIdx.findSome? (NameRule.byNode nodes n.id) with
    | none => exact ⟨_, .numbered hn, hplain, ruledParam_eq hwords hrole⟩
    | some name =>
      obtain ⟨⟨m, j⟩, hentry, hname⟩ := List.exists_of_findSome?_eq_some hfound
      have hm : nodes[j]? = some m := List.mem_zipIdx_iff_getElem?.mp hentry
      obtain ⟨a, i, hlrole, hi, rfl⟩ := NameRule.byNode_eq_some hname
      refine ⟨_, .argument hn hm hlrole hi, plainWord_word hwords (List.mem_of_getElem? hm), ?_⟩
      rw [Option.getD_some, ruledLayer_eq hwords hm hlrole]
      rfl

end

/-- **Generated names are distinct**: no two nodes of a list without explicit names, in dependency
order and over ops with the names of built-in ones, are given one name. -/
theorem generated_names_distinct {nodes : List (Node F)} (ho : Ordered nodes)
    (hbuiltin : ∀ n ∈ nodes, ∀ a, n.role = .layer a → ∃ b : Builtin, a.op.name = b.name)
    (hunnamed : ∀ n ∈ nodes, n.label.name = none) :
    ∃ names, assignNames nodes = .ok names ∧ names.length = nodes.length ∧ names.Nodup := by
  have hwords : ∀ n ∈ nodes, ∀ a, n.role = .layer a → OpWord a.op.name := by
    intro n hn a hrole
    obtain ⟨b, hb⟩ := hbuiltin n hn a hrole
    exact hb ▸ opWord_builtin b
  refine ⟨_, assignNames_eq ho, by simp, List.Nodup.map_on ?_ ?_⟩
  · rintro ⟨m, j⟩ hm ⟨n, k⟩ hn he
    have hm' : nodes[j]? = some m := List.mem_zipIdx_iff_getElem?.mp hm
    have hn' : nodes[k]? = some n := List.mem_zipIdx_iff_getElem?.mp hn
    obtain ⟨g, hg, hplain, htext⟩ := exists_calledBy hwords hunnamed hm'
    obtain ⟨g', hg', hplain', htext'⟩ := exists_calledBy hwords hunnamed hn'
    obtain rfl : j = k := hg.place_unique ho.distinct hg'
      (GeneratedName.text_inj hplain hplain' (htext.symm.trans (he.trans htext')))
    rw [Option.some.inj (hm'.symm.trans hn')]
  · refine List.Nodup.of_map Prod.snd ?_
    rw [List.zipIdx_map_snd]
    exact List.nodup_range' 1

/-- A product of products, and a parameter that nothing reads. -/
def unnamedProducts : List (Node ℚ) :=
  [⟨0, bareLabel, .param ⟨.real 3, .none, .none, .gradient⟩⟩,
    ⟨1, bareLabel, .input⟩,
    ⟨2, bareLabel, .layer ⟨Builtin.times.op, [.node ⟨0, .param, ""⟩, .node ⟨1, .input, ""⟩], [],
      .same, .same, [], none⟩⟩,
    ⟨3, bareLabel, .param ⟨.real 4, .none, .none, .gradient⟩⟩,
    ⟨4, bareLabel, .layer ⟨Builtin.times.op, [.node ⟨2, .layer, ""⟩, .node ⟨3, .param, ""⟩], [],
      .same, .same, [], none⟩⟩,
    ⟨5, bareLabel, .param ⟨.real 5, .none, .none, .gradient⟩⟩]

theorem generated_names_distinct_unnamedProducts :
    Ordered unnamedProducts ∧
      (∀ n ∈ unnamedProducts, ∀ a, n.role = .layer a → ∃ b : Builtin, a.op.name = b.name) ∧
      (∀ n ∈ unnamedProducts, n.label.name = none) ∧
      assignNames unnamedProducts
        = .ok ["times1_p1", "input1", "times1", "times2_p2", "times2", "param3"] ∧
      ["times1_p1", "input1", "times1", "times2_p2", "times2", "param3"].Nodup := by
  have ho : Ordered unnamedProducts := ⟨by decide, violations_eq_nil_iff.mp rfl⟩
  have hbuiltin : ∀ n ∈ unnamedProducts, ∀ a, n.role = .layer a →
      ∃ b : Builtin, a.op.name = b.name := by
    intro n hn a hrole
    simp only [unnamedProducts, List.mem_cons, List.not_mem_nil, or_false] at hn
    rcases hn with rfl | rfl | rfl | rfl | rfl | rfl <;> cases hrole
    · exact ⟨.times, rfl⟩
    · exact ⟨.times, rfl⟩
  have hunnamed : ∀ n ∈ unnamedProducts, n.label.name = none := by decide
  have hnames : assignNames unnamedProducts
      = .ok ["times1_p1", "input1", "times1", "times2_p2", "times2", "param3"] := rfl
  obtain ⟨names, hok, -, hdistinct⟩ := generated_names_distinct ho hbuiltin hunnamed
  cases hnames.symm.trans hok
  exact ⟨ho, hbuiltin, hunnamed, hnames, hdistinct⟩

end SlotGrad
