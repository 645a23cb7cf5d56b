import Mathlib.Tactic
import Flowgraph.Proofs.Graph.DepthFirst

/-! # What a listing shows

The listing of a graph tells which blocks are within reach, in which order, and all that they do. It
does not tell where an instruction comes from, nor whether a slot was reserved. The text falls into
lines at its line ends and a line into words at its blanks; none of the words contains either. -/

namespace Flowgraph

/-! ## Code that reads alike -/

/-- Of a slot only the number is shown. -/
def Operand.Alike : (a b : Operand) → Prop
  | .uint m, .uint n => m = n
  | .bytes bs, .bytes cs => bs = cs
  | .slot s, .slot t => s.aliases t = true
  | _, _ => False

@[mk_iff]
structure Instr.Alike (a b : Instr) : Prop where
  opcode : a.opcode = b.opcode
  operands : List.Forall₂ Operand.Alike a.operands b.operands

@[mk_iff]
structure Block.Alike (a b : Block) : Prop where
  instrs : List.Forall₂ Instr.Alike a.instrs b.instrs
  edge : a.edge = b.edge

/-! ## Words and lines -/

namespace Text

def IsWord (text : String) : Prop :=
  ' ' ∉ text.toList ∧ '\n' ∉ text.toList

instance : DecidablePred IsWord := fun _ => inferInstanceAs (Decidable (_ ∧ _))

theorem IsWord.append {a b : String} (ha : IsWord a) (hb : IsWord b) : IsWord (a ++ b) := by
  simp_all [IsWord]

theorem not_mem_toString {c : Char} (n : Nat) (other : c.isDigit = false) :
    c ∉ (toString n).toList := by
  intro m
  rw [Nat.toString_eq_ofList_toDigits, String.toList_ofList] at m
  have digit := Nat.isDigit_of_mem_toDigits (by decide) (by decide) m
  rw [other] at digit
  cases digit

theorem isWord_toString (n : Nat) : IsWord (toString n) :=
  ⟨not_mem_toString n (by decide), not_mem_toString n (by decide)⟩

theorem toString_inj {m n : Nat} : toString m = toString n ↔ m = n := by
  refine ⟨fun same => ?_, congrArg _⟩
  rw [Nat.toString_eq_ofList_toDigits, Nat.toString_eq_ofList_toDigits, String.ofList_inj] at same
  rw [← Nat.ofDigitChars_ten_toDigits (n := m), same, Nat.ofDigitChars_ten_toDigits]

/-- Text in which a mark stands between the parts, and in no part, falls into these parts only. -/
theorem intercalate_inj {mark : Char} {l m : List String} (hl : ∀ part ∈ l, mark ∉ part.toList)
    (hm : ∀ part ∈ m, mark ∉ part.toList) (l_ne : l ≠ []) (m_ne : m ≠ []) :
    (String.singleton mark).intercalate l = (String.singleton mark).intercalate m ↔ l = m := by
  refine ⟨fun same => ?_, congrArg _⟩
  have parts := String.toList_split_intercalate hl
  have parts' := String.toList_split_intercalate hm
  rw [if_neg l_ne] at parts
  rw [if_neg m_ne] at parts'
  rw [← parts, ← parts', same]

/-- Parts with the mark in front of each, behind a first part. -/
theorem append_join_eq_intercalate (mark first : String) (parts : List String) :
    first ++ String.join (parts.map (mark ++ ·)) = mark.intercalate (first :: parts) := by
  induction parts generalizing first with
  | nil => simp
  | cons part parts ih =>
      rw [String.intercalate_cons_cons, ← ih part]
      simp [String.append_assoc]

/-- Parts with the mark behind each. -/
theorem join_eq_intercalate (mark : String) (parts : List String) :
    String.join (parts.map (· ++ mark)) = mark.intercalate (parts ++ [""]) := by
  induction parts with
  | nil => simp
  | cons part parts ih =>
      rw [List.cons_append, String.intercalate_cons_of_ne_nil (by simp), ← ih]
      simp

/-- The words of a line. -/
structure IsLine (words : List String) : Prop where
  ne_nil : words ≠ []
  isWord : ∀ word ∈ words, IsWord word

theorem IsLine.intercalate_inj {l m : List String} (hl : IsLine l) (hm : IsLine m) :
    " ".intercalate l = " ".intercalate m ↔ l = m :=
  Text.intercalate_inj (fun word h => (hl.isWord word h).1) (fun word h => (hm.isWord word h).1)
    hl.ne_nil hm.ne_nil

theorem lines_inj {l m : List String} (hl : ∀ line ∈ l, '\n' ∉ line.toList)
    (hm : ∀ line ∈ m, '\n' ∉ line.toList) :
    String.join (l.map (· ++ "\n")) = String.join (m.map (· ++ "\n")) ↔ l = m := by
  have ended {lines : List String} (h : ∀ line ∈ lines, '\n' ∉ line.toList) :
      ∀ line ∈ lines ++ [""], '\n' ∉ line.toList := by
    simpa [or_imp, forall_and] using h
  rw [join_eq_intercalate, join_eq_intercalate]
  exact (intercalate_inj (ended hl) (ended hm) (by simp) (by simp)).trans (List.append_left_inj _)

theorem IsLine.not_mem_intercalate {words : List String} (h : IsLine words) :
    '\n' ∉ (" ".intercalate words).toList := by
  obtain ⟨-, isWord⟩ := h
  induction words with
  | nil => simp
  | cons word rest ih =>
      rw [List.forall_mem_cons] at isWord
      cases rest with
      | nil => simpa using isWord.1.2
      | cons next rest =>
          rw [String.intercalate_cons_cons, String.toList_append, String.toList_append]
          simpa only [List.mem_append, not_or] using ⟨⟨isWord.1.2, by decide⟩, ih isWord.2⟩

/-- Lists that are written item by item. -/
theorem map_eq_map_iff {α : Type} {R : α → α → Prop} {text : α → String}
    (same : ∀ a b, text a = text b ↔ R a b) {l m : List α} :
    l.map text = m.map text ↔ List.Forall₂ R l m := by
  rw [← List.forall₂_eq_eq_eq, List.forall₂_map_left_iff, List.forall₂_map_right_iff]
  simp only [same]

end Text

open Text

/-! ## Operands -/

theorem Hex.encode_inj {a b : List UInt8} : encode a = encode b ↔ a = b := by
  refine ⟨fun same => ?_, congrArg _⟩
  have back := decode?_encode a
  rwa [same, decode?_encode, Option.some.injEq, eq_comm] at back

theorem Hex.isWord_encode (bytes : List UInt8) : IsWord (String.ofList (encode bytes)) := by
  have digits : ∀ n < 16, Nat.digitChar n ≠ ' ' ∧ Nat.digitChar n ≠ '\n' := by decide
  have each : ∀ c ∈ encode bytes, c ≠ ' ' ∧ c ≠ '\n' := by
    intro c m
    obtain ⟨b, -, m⟩ := List.mem_flatMap.mp m
    have small := b.toNat_lt
    rcases List.mem_pair.mp m with rfl | rfl
    · exact digits _ (by omega)
    · exact digits _ (by omega)
  rw [IsWord, String.toList_ofList]
  exact ⟨fun m => (each _ m).1 rfl, fun m => (each _ m).2 rfl⟩

theorem Operand.isWord_text (operand : Operand) : IsWord operand.text := by
  cases operand with
  | uint value => exact isWord_toString _
  | bytes value => exact IsWord.append (by decide) (Hex.isWord_encode value)
  | slot s => exact IsWord.append (by decide) (isWord_toString _)

namespace Operand

/-! A number is written in digits alone, so it is neither a byte string nor a slot. -/

theorem text_uint_ne_bytes (m : UInt64) (bs : List UInt8) : (uint m).text ≠ (bytes bs).text := by
  intro same
  have noX : 'x' ∉ (uint m).text.toList := not_mem_toString _ (by decide)
  rw [same] at noX
  simp [text] at noX

theorem text_uint_ne_slot (m : UInt64) (s : Slot) : (uint m).text ≠ (slot s).text := by
  intro same
  have noMark : '#' ∉ (uint m).text.toList := not_mem_toString _ (by decide)
  rw [same] at noMark
  simp [text, Slot.text] at noMark

theorem text_bytes_ne_slot (bs : List UInt8) (s : Slot) : (bytes bs).text ≠ (slot s).text := by
  intro same
  have heads := congrArg (fun text => text.toList.head?) same
  simp [text, Slot.text] at heads

theorem text_eq_iff {a b : Operand} : a.text = b.text ↔ a.Alike b := by
  cases a with
  | uint m =>
      cases b with
      | uint n => exact toString_inj.trans UInt64.toNat_inj
      | bytes cs => exact iff_of_false (text_uint_ne_bytes m cs) id
      | slot t => exact iff_of_false (text_uint_ne_slot m t) id
  | bytes bs =>
      cases b with
      | uint n => exact iff_of_false (text_uint_ne_bytes n bs).symm id
      | bytes cs =>
          simp only [text, String.append_right_inj, String.ofList_inj, Hex.encode_inj]
          rfl
      | slot t => exact iff_of_false (text_bytes_ne_slot bs t) id
  | slot s =>
      cases b with
      | uint n => exact iff_of_false (text_uint_ne_slot n s).symm id
      | bytes cs => exact iff_of_false (text_bytes_ne_slot cs s).symm id
      | slot t =>
          simp only [text, Slot.text, String.append_right_inj, Alike, Slot.aliases_iff]
          exact toString_inj.trans UInt32.toNat_inj

end Operand

/-! ## Instructions and edges -/

def Instr.words (instr : Instr) : List String :=
  instr.opcode.mnemonic :: instr.operands.map Operand.text

def Edge.words : Edge → List String
  | none => ["end"]
  | jump target => ["jump", target.text]
  | branch onTrue onFalse => ["branch", onTrue.text ++ ",", onFalse.text]

theorem Instr.text_eq_words (instr : Instr) : instr.text = " ".intercalate instr.words := by
  rw [words, ← append_join_eq_intercalate, List.map_map]
  rfl

theorem Edge.text_eq_words (edge : Edge) : edge.text = " ".intercalate edge.words := by
  cases edge <;> simp [text, words, String.append_assoc]

theorem BlockId.isWord_text (id : BlockId) : IsWord id.text :=
  IsWord.append (by decide) (isWord_toString _)

theorem Instr.isLine_words (instr : Instr) : IsLine instr.words where
  ne_nil := List.cons_ne_nil _ _
  isWord := by
    rw [words, List.forall_mem_cons, List.forall_mem_map]
    refine ⟨?_, fun operand _ => operand.isWord_text⟩
    cases instr.opcode <;> decide

theorem Edge.isLine_words (edge : Edge) : IsLine edge.words where
  ne_nil := by cases edge <;> exact List.cons_ne_nil _ _
  isWord := by
    cases edge with
    | none => decide
    | jump target => simpa [words] using ⟨by decide, target.isWord_text⟩
    | branch onTrue onFalse =>
        have first := onTrue.isWord_text.append (b := ",") (by decide)
        simpa [words] using ⟨by decide, first, onFalse.isWord_text⟩

theorem Opcode.mnemonic_inj {a b : Opcode} : a.mnemonic = b.mnemonic ↔ a = b := by
  cases a <;> cases b <;> decide

theorem Instr.text_eq_iff {a b : Instr} : a.text = b.text ↔ a.Alike b := by
  rw [text_eq_words, text_eq_words, a.isLine_words.intercalate_inj b.isLine_words, words, words,
    List.cons.injEq, Opcode.mnemonic_inj, map_eq_map_iff fun _ _ => Operand.text_eq_iff,
    alike_iff]

theorem BlockId.text_inj {a b : BlockId} : a.text = b.text ↔ a = b := by
  rw [text, text, String.append_right_inj, ← index_inj]
  exact toString_inj

theorem Edge.text_inj {a b : Edge} : a.text = b.text ↔ a = b := by
  rw [text_eq_words, text_eq_words, a.isLine_words.intercalate_inj b.isLine_words]
  cases a <;> cases b <;> simp [words, BlockId.text_inj]

/-- No instruction begins with a word that edges begin with. -/
theorem Instr.text_ne_edge (instr : Instr) (edge : Edge) : instr.text ≠ edge.text := by
  rw [text_eq_words, Edge.text_eq_words, Ne,
    instr.isLine_words.intercalate_inj edge.isLine_words]
  cases edge <;> cases h : instr.opcode <;> simp [words, Edge.words, Opcode.mnemonic, h]

/-! ## Blocks -/

namespace Block

theorem not_mem_of_mem_lines {id : BlockId} {block : Block} :
    ∀ line ∈ block.lines id, '\n' ∉ line.toList := by
  have indented {words : List String} (h : IsLine words) :
      '\n' ∉ ("  " ++ " ".intercalate words).toList := by
    simpa using h.not_mem_intercalate
  have name := id.isWord_text.2
  rw [lines, List.forall_mem_append, List.forall_mem_cons, List.forall_mem_map,
    List.forall_mem_singleton]
  refine ⟨⟨by simpa using name, fun instr _ => ?_⟩, ?_⟩
  · rw [instr.text_eq_words]
    exact indented instr.isLine_words
  · rw [block.edge.text_eq_words]
    exact indented block.edge.isLine_words

/-- The instructions of a block end at the line of the edge. -/
theorem body_eq_iff {l m : List Instr} {edge edge' : Edge} {rest rest' : List String} :
    l.map (fun instr => "  " ++ instr.text) ++ ("  " ++ edge.text) :: rest =
        m.map (fun instr => "  " ++ instr.text) ++ ("  " ++ edge'.text) :: rest' ↔
      (List.Forall₂ Instr.Alike l m ∧ edge = edge') ∧ rest = rest' := by
  induction l generalizing m with
  | nil =>
      cases m with
      | nil => simp [String.append_right_inj, Edge.text_inj]
      | cons instr m => simp [String.append_right_inj, (instr.text_ne_edge edge).symm]
  | cons instr l ih =>
      cases m with
      | nil => simp [String.append_right_inj, instr.text_ne_edge edge']
      | cons instr' m => simp [String.append_right_inj, Instr.text_eq_iff, ih, and_assoc]

theorem lines_append_eq_iff {id id' : BlockId} {block block' : Block} {rest rest' : List String} :
    block.lines id ++ rest = block'.lines id' ++ rest' ↔
      (id = id' ∧ block.Alike block') ∧ rest = rest' := by
  simp only [lines, List.cons_append, List.append_assoc, List.nil_append, List.cons.injEq,
    body_eq_iff, String.append_left_inj, BlockId.text_inj, alike_iff, and_assoc]

theorem flatMap_lines_eq_iff {l m : List (BlockId × Block)} :
    (l.flatMap fun stop => stop.2.lines stop.1) = (m.flatMap fun stop => stop.2.lines stop.1) ↔
      List.Forall₂ (fun a b => a.1 = b.1 ∧ a.2.Alike b.2) l m := by
  have ne_nil (stop : BlockId × Block) : stop.2.lines stop.1 ≠ [] := by
    simp [lines]
  induction l generalizing m with
  | nil =>
      cases m with
      | nil => simp
      | cons stop m => simp [ne_nil]
  | cons stop l ih =>
      cases m with
      | nil => simp [ne_nil]
      | cons stop' m => simp only [List.flatMap_cons, lines_append_eq_iff, ih, List.forall₂_cons]

end Block

/-! ## Graphs -/

namespace Graph

variable {g h : Graph} {entry entry' : BlockId} {l m : List (BlockId × Block)}

/-- Blocks that were looked up in two graphs, compared one by one and by their identities. -/
theorem forall₂_alike_iff (found : ∀ stop ∈ m, h.blocks[stop.1.index]? = some stop.2) :
    List.Forall₂ (fun a b => a.1 = b.1 ∧ a.2.Alike b.2) l m ↔
      l.map Prod.fst = m.map Prod.fst ∧
        ∀ stop ∈ l, ∃ block, h.blocks[stop.1.index]? = some block ∧ stop.2.Alike block := by
  induction l generalizing m with
  | nil => cases m <;> simp
  | cons stop l ih =>
      cases m with
      | nil => simp
      | cons stop' m =>
          rw [List.forall_mem_cons] at found
          rw [List.forall₂_cons, ih found.2, List.map_cons, List.map_cons, List.cons.injEq,
            List.forall_mem_cons]
          constructor
          · intro alike
            obtain ⟨⟨same, alike⟩, sameRest, rest⟩ := alike
            exact ⟨⟨same, sameRest⟩, ⟨_, same ▸ found.1, alike⟩, rest⟩
          · intro alike
            obtain ⟨⟨same, sameRest⟩, ⟨block, there, alike⟩, rest⟩ := alike
            rw [same, found.1, Option.some.injEq] at there
            exact ⟨⟨same, there ▸ alike⟩, sameRest, rest⟩

/-- Where all that is within reach lies in the graphs, both have a listing, and the two are the same
text exactly if the search lists the same blocks in the same order and each block reads alike in
both graphs: the same edge, and the same opcodes with the same operands, slots by number. -/
theorem listing_eq_iff (inside : g.Inside entry) (inside' : h.Inside entry') :
    ∃ text text', g.listing entry = .ok text ∧ h.listing entry' = .ok text' ∧
      (text = text' ↔ g.reachable entry = h.reachable entry' ∧
        ∀ id, g.Reaches entry id → ∃ block block', g.blocks[id.index]? = some block ∧
          h.blocks[id.index]? = some block' ∧ block.Alike block') := by
  obtain ⟨l, lists, listed⟩ := exists_listing inside
  obtain ⟨m, lists', listed'⟩ := exists_listing inside'
  refine ⟨_, _, listed, listed', ?_⟩
  have oneLine {blocks : List (BlockId × Block)} :
      ∀ line ∈ blocks.flatMap fun stop => stop.2.lines stop.1, '\n' ∉ line.toList := by
    rw [List.forall_mem_flatMap]
    exact fun stop _ => Block.not_mem_of_mem_lines
  have order : g.reachable entry = h.reachable entry' ↔ l.map Prod.fst = m.map Prod.fst := by
    rw [lists.order, lists'.order, Except.ok.injEq, ← Array.toList_inj]
  rw [lines_inj oneLine oneLine, Block.flatMap_lines_eq_iff, forall₂_alike_iff lists'.found, order]
  refine and_congr_right fun _ => ?_
  simp only [Prod.forall, lists.mem_iff, and_imp]
  constructor
  · intro alike id reaches
    have there : g.blocks[id.index]? = some _ := Array.getElem?_eq_getElem (inside id reaches)
    obtain ⟨block', there', alike⟩ := alike id _ reaches there
    exact ⟨_, block', there, there', alike⟩
  · intro alike id block reaches there
    obtain ⟨same, block', there₂, there', alike⟩ := alike id reaches
    rw [there, Option.some.injEq] at there₂
    exact ⟨block', there', there₂ ▸ alike⟩

/-- Two graphs that differ in what is not shown: where an instruction comes from, and whether a slot
was reserved. -/
theorem listing_eq_iff_unseen :
    let g : Graph := ⟨#[⟨[⟨.load, [.slot ⟨3, true⟩, .bytes [171]], ⟨4⟩⟩], .jump ⟨0⟩⟩]⟩
    let h : Graph := ⟨#[⟨[⟨.load, [.slot ⟨3, false⟩, .bytes [171]], ⟨5⟩⟩], .jump ⟨0⟩⟩]⟩
    g.Inside ⟨0⟩ ∧ h.Inside ⟨0⟩ ∧ ∃ text, g.listing ⟨0⟩ = .ok text ∧ h.listing ⟨0⟩ = .ok text := by
  intro g h
  have inside : g.Inside ⟨0⟩ := Closed.inside (by simp only [Closed]; decide) (by decide)
  have inside' : h.Inside ⟨0⟩ := Closed.inside (by simp only [Closed]; decide) (by decide)
  obtain ⟨text, text', listed, listed', same⟩ := listing_eq_iff inside inside'
  have order : g.reachable ⟨0⟩ = .ok #[⟨0⟩] :=
    reachable_eq_ok_iff.mpr (.new (by decide) rfl (.cons (.known (by decide)) (.nil _)))
  have order' : h.reachable ⟨0⟩ = .ok #[⟨0⟩] :=
    reachable_eq_ok_iff.mpr (.new (by decide) rfl (.cons (.known (by decide)) (.nil _)))
  have alike : ∀ id, g.Reaches ⟨0⟩ id → ∃ block block', g.blocks[id.index]? = some block ∧
      h.blocks[id.index]? = some block' ∧ block.Alike block' := by
    intro id reaches
    have first : id = ⟨0⟩ := BlockId.index_inj.mp (Nat.lt_one_iff.mp (inside id reaches))
    subst first
    have instr : List.Forall₂ Operand.Alike [.slot ⟨3, true⟩, .bytes [171]]
        [.slot ⟨3, false⟩, .bytes [171]] := .cons rfl (.cons rfl .nil)
    exact ⟨_, _, rfl, rfl, .cons ⟨rfl, instr⟩ .nil, rfl⟩
  obtain rfl := same.mpr ⟨order.trans order'.symm, alike⟩
  exact ⟨inside, inside', text, listed, listed'⟩

end Graph

end Flowgraph
