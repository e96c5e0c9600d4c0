import Jaf.Proofs.Output.ValueText

/-!
# Listings and their texts

A listing is what the dump shows of a container: types are there by their text, and a global comes with its
initial value. Its text can be taken apart in one way only (`Listing.text_inj`), since every piece of it has
an end that can be seen: a word ends where no word goes on, a value ends with its line, and from where a list
stands one sees whether it goes on. `Tells` says this of a piece in front of whatever may come behind it.
-/

namespace Jaf

/-! ## Telling texts apart -/

/-- What is written of things with `P` can be told from its text, in front of texts with `S`. -/
def Tells {α : Type} (P : α → Prop) (S : List Char → Prop) (write : α → List Char) : Prop :=
  ∀ ⦃a b u v⦄, P a → P b → S u → S v → write a ++ u = write b ++ v → a = b ∧ u = v

/-- The texts of a list, each written with its position. -/
def numbered {α : Type} (write : Nat → α → List Char) : Nat → List α → List Char
  | _, [] => []
  | n, a :: as => write n a ++ numbered write (n + 1) as

/-- A list is told by telling its items, if from its end one sees that no item comes any more. -/
theorem Tells.numbered {α : Type} {P : α → Prop} {S T : List Char → Prop} {write : Nat → α → List Char}
    (hitem : ∀ n, Tells P S (write n)) (hnext : ∀ n a u, P a → S (write n a ++ u)) (hend : ∀ u, T u → S u)
    (hstop : ∀ n a u v, P a → T v → write n a ++ u ≠ v) (n : Nat) :
    Tells (fun as => ∀ a ∈ as, P a) T (numbered write n) := by
  intro as bs u v has hbs hu hv h
  induction as generalizing bs n with
  | nil =>
      cases bs with
      | nil => exact ⟨rfl, h⟩
      | cons b bs =>
          rw [Jaf.numbered, Jaf.numbered, List.append_assoc] at h
          exact absurd h.symm (hstop n b _ u (hbs b List.mem_cons_self) hu)
  | cons a as ih =>
      obtain ⟨ha, has⟩ := List.forall_mem_cons.mp has
      cases bs with
      | nil =>
          rw [Jaf.numbered, Jaf.numbered, List.append_assoc] at h
          exact absurd h (hstop n a _ v ha hv)
      | cons b bs =>
          obtain ⟨hb, htail⟩ := List.forall_mem_cons.mp hbs
          -- behind an item comes another one or the end
          have hrest : ∀ {as : List α} {w : List Char}, (∀ a ∈ as, P a) → T w →
              S (Jaf.numbered write (n + 1) as ++ w) := by
            intro as w has hw
            cases as with
            | nil => exact hend w hw
            | cons a as =>
                rw [Jaf.numbered, List.append_assoc]
                exact hnext _ a _ (has a List.mem_cons_self)
          rw [Jaf.numbered, Jaf.numbered, List.append_assoc, List.append_assoc] at h
          obtain ⟨rfl, hrests⟩ := hitem n ha hb (hrest has hu) (hrest htail hv) h
          obtain ⟨rfl, huv⟩ := ih (n + 1) has htail hrests
          exact ⟨rfl, huv⟩

/-- A text of characters that words go on with. -/
def Word (cs : List Char) : Prop := ∀ c ∈ cs, isWordPart c = true

theorem tells_word : Tells (fun s : String => Word s.toList) (Stops isWordPart) String.toList := by
  intro s t u v hs ht hu hv h
  obtain ⟨hst, huv⟩ := run_append_inj hs ht hu hv h
  exact ⟨String.toList_inj.mp hst, huv⟩

theorem tells_number : Tells (fun _ : Nat => True) (Stops Char.isDigit) fun n => (toString n).toList := by
  intro n k u v _ _ hu hv h
  obtain ⟨hnk, huv⟩ := run_append_inj (digits_toString n).2 (digits_toString k).2 hu hv h
  refine ⟨?_, huv⟩
  rw [← digitsValue_toString n, hnk, digitsValue_toString]

/-- A text with a given character at its beginning. -/
def Begins (c : Char) (cs : List Char) : Prop := ∃ u, cs = c :: u

theorem begins_cons (c : Char) (u : List Char) : Begins c (c :: u) := ⟨u, rfl⟩

theorem Begins.stops {c : Char} {cs : List Char} (h : Begins c cs) {p : Char → Bool} (hc : p c = false) :
    Stops p cs := by
  obtain ⟨u, rfl⟩ := h
  exact .cons hc u

/-- A value goes on to the end of its line. -/
theorem tells_value : Tells (fun _ : Value => True) (Begins '\n') fun v => v.text.toList := by
  intro x y u v _ _ hu hv h
  obtain ⟨hxy, huv⟩ := run_append_inj (p := (· != '\n')) x.oneLine_text y.oneLine_text
    (hu.stops (by decide)) (hv.stops (by decide)) h
  exact ⟨Value.text_injective (String.toList_inj.mp hxy), huv⟩

/-! ## Types and names -/

/-- The word in front of the name of a struct. -/
def structWord : List Char := ['s', 't', 'r', 'u', 'c', 't']

theorem word_structWord : Word structWord := List.all_eq_true.mp rfl

/-- The text of a type: a word, or the word for structs and the name of one. -/
inductive TypeText (cs : List Char) : Prop
  | scalar : Word cs → cs ≠ structWord → TypeText cs
  | struct {name : List Char} : Word name → cs = structWord ++ ' ' :: name → TypeText cs

/-- The first word of a type, and what comes behind it. -/
theorem TypeText.split {cs : List Char} (h : TypeText cs) (u : List Char) :
    ∃ w v, Word w ∧ cs ++ ' ' :: u = w ++ ' ' :: v := by
  cases h with
  | scalar hcs _ => exact ⟨cs, u, hcs, rfl⟩
  | @struct name hname hcs =>
      exact ⟨structWord, name ++ ' ' :: u, word_structWord, by rw [hcs, List.append_assoc]; rfl⟩

theorem tells_type : Tells (fun s : String => TypeText s.toList) (Begins ' ') String.toList := by
  have hblank : ∀ u, Stops isWordPart (' ' :: u) := fun u => .cons (by decide) u
  rintro s t _ _ hs ht ⟨u, rfl⟩ ⟨v, rfl⟩ h
  suffices hst : s.toList = t.toList by
    exact ⟨String.toList_inj.mp hst, List.append_cancel_left (hst ▸ h)⟩
  cases hs with
  | scalar hs hne =>
      cases ht with
      | scalar ht _ => exact (run_append_inj hs ht (hblank u) (hblank v) h).1
      | struct _ ht =>
          rw [ht, List.append_assoc] at h
          exact absurd (run_append_inj hs word_structWord (hblank u) (hblank _) h).1 hne
  | struct hname hs =>
      rw [hs, List.append_assoc] at h
      cases ht with
      | scalar ht hne => exact absurd (run_append_inj word_structWord ht (hblank _) (hblank v) h).1.symm hne
      | struct hname' ht =>
          rw [ht, List.append_assoc] at h
          have hnames := (List.cons.inj (List.append_cancel_left h)).2
          rw [hs, ht, (run_append_inj hname hname' (hblank u) (hblank v) hnames).1]

/-- A type and a name, as they stand for a variable and at the head of a function. -/
@[ext]
structure Label where
  type : String
  name : String

namespace Label

def text (l : Label) : List Char := l.type.toList ++ ' ' :: l.name.toList

structure Readable (l : Label) : Prop where
  type : TypeText l.type.toList
  name : Word l.name.toList

theorem tells_text : Tells Readable (Stops isWordPart) text := by
  intro l k u v hl hk hu hv h
  simp only [text, List.append_assoc, List.cons_append] at h
  obtain ⟨htype, h⟩ := tells_type hl.type hk.type (begins_cons ..) (begins_cons ..) h
  obtain ⟨hname, huv⟩ := tells_word hl.name hk.name hu hv (List.cons.inj h).2
  exact ⟨Label.ext htype hname, huv⟩

/-- No label begins with a mark. -/
theorem text_ne {l : Label} (hl : l.Readable) {c : Char} (hc : isWordPart c = false) (hblank : c ≠ ' ')
    (u v : List Char) : l.text ++ u ≠ c :: v := by
  obtain ⟨w, rest, hw, hsplit⟩ := hl.type.split (l.name.toList ++ u)
  rw [text, List.append_assoc, List.cons_append, hsplit]
  intro h
  cases w with
  | nil => exact hblank (List.cons.inj h).1.symm
  | cons d w =>
      have hd := hw d List.mem_cons_self
      rw [(List.cons.inj h).1, hc] at hd
      cases hd

/-- Labels that each come behind a mark are told, in front of another mark. -/
theorem tells_marked {mark : Nat → List Char} {c e : Char} (hmark : ∀ n, Begins c (mark n))
    (hc : isWordPart c = false) (he : isWordPart e = false) (hne : c ≠ e) (n : Nat) :
    Tells (fun ls : List Label => ∀ l ∈ ls, l.Readable) (Begins e)
      (numbered (fun n l => mark n ++ text l) n) := by
  refine Tells.numbered (S := Stops isWordPart) (fun n l k u v hl hk hu hv h => ?_) (fun n l u _ => ?_)
    (fun u hu => hu.stops he) ?_ n
  · rw [List.append_assoc, List.append_assoc] at h
    exact tells_text hl hk hu hv (List.append_cancel_left h)
  · obtain ⟨w, hw⟩ := hmark n
    rw [hw]
    exact .cons hc _
  · rintro n l u _ _ ⟨v, rfl⟩ h
    obtain ⟨w, hw⟩ := hmark n
    rw [hw] at h
    exact hne (List.cons.inj h).1

end Label

/-! ## Entries and their lines -/

/-- What a line begins with. -/
def lineHead (kind : List Char) (n : Nat) : List Char := kind ++ ' ' :: (toString n).toList ++ [' ']

/-- A struct and its members, as the dump shows them. -/
@[ext]
structure StructEntry where
  name : String
  members : List Label

namespace StructEntry

def memberText (l : Label) : List Char := ' ' :: l.text ++ [';']

def line (n : Nat) (s : StructEntry) : List Char :=
  lineHead structWord n ++ s.name.toList ++ ' ' :: '\x7b' :: numbered (fun _ => memberText) 0 s.members
    ++ [' ', '\x7d', '\n']

structure Readable (s : StructEntry) : Prop where
  name : Word s.name.toList
  members : ∀ l ∈ s.members, l.Readable

theorem tells_members : Tells (fun ls => ∀ l ∈ ls, l.Readable) (fun u => ∃ v, u = ' ' :: '\x7d' :: v)
    (numbered (fun _ => memberText) 0) := by
  refine Tells.numbered (S := fun _ => True) (fun _ l k u v hl hk _ _ h => ?_) (fun _ _ _ _ => trivial)
    (fun _ _ => trivial) ?_ 0
  · simp only [memberText, List.cons_append, List.append_assoc, List.cons.injEq, true_and] at h
    obtain ⟨hlk, h⟩ := Label.tells_text hl hk (.cons (by decide) _) (.cons (by decide) _) h
    exact ⟨hlk, (List.cons.inj h).2⟩
  · -- a member and the end both begin with a blank, so it is the character behind it that tells them apart
    rintro _ l u _ hl ⟨v, rfl⟩ h
    simp only [memberText, List.cons_append, List.append_assoc, List.cons.injEq, true_and] at h
    exact Label.text_ne hl (by decide) (by decide) _ _ h

theorem tells_line (n : Nat) : Tells Readable (fun _ => True) (line n) := by
  intro s t u v hs ht _ _ h
  simp only [line, List.append_assoc, List.cons_append, List.nil_append] at h
  obtain ⟨hname, h⟩ := tells_word hs.name ht.name (.cons (by decide) _) (.cons (by decide) _)
    (List.append_cancel_left h)
  simp only [List.cons.injEq, true_and] at h
  obtain ⟨hmembers, h⟩ := tells_members hs.members ht.members ⟨_, rfl⟩ ⟨_, rfl⟩ h
  simp only [List.cons.injEq, true_and] at h
  exact ⟨StructEntry.ext hname hmembers, h⟩

end StructEntry

/-- A function with its parameters and its locals, as the dump shows them. -/
@[ext]
structure FunctionEntry where
  head : Label
  params : List Label
  locals : List Label

namespace FunctionEntry

/-- The parameters, with commas between them. -/
def paramsText : List Label → List Char
  | [] => []
  | l :: ls => l.text ++ numbered (fun _ l => [',', ' '] ++ Label.text l) 0 ls

def slotText (slot : Nat) : List Char := ' ' :: '[' :: (toString slot).toList ++ [']', ' ']

/-- The locals with their slots, and nothing if there are none. -/
def localsText (first : Nat) : List Label → List Char
  | [] => []
  | l :: ls => [' ', 'l', 'o', 'c', 'a', 'l', 's', ':']
      ++ numbered (fun slot l => slotText slot ++ Label.text l) first (l :: ls)

def line (n : Nat) (f : FunctionEntry) : List Char :=
  lineHead ['f', 'u', 'n', 'c', 't', 'i', 'o', 'n'] n ++ f.head.text ++ '(' :: paramsText f.params ++ ')' ::
    localsText f.params.length f.locals ++ ['\n']

structure Readable (f : FunctionEntry) : Prop where
  head : f.head.Readable
  params : ∀ l ∈ f.params, l.Readable
  locals : ∀ l ∈ f.locals, l.Readable

theorem tells_params : Tells (fun ls => ∀ l ∈ ls, l.Readable) (Begins ')') paramsText := by
  have hothers : Tells (fun ls => ∀ l ∈ ls, l.Readable) (Begins ')')
      (numbered (fun _ l => [',', ' '] ++ Label.text l) 0) :=
    Label.tells_marked (c := ',') (e := ')') (fun _ => begins_cons ..) (by decide) (by decide) (by decide) 0
  have hstops : ∀ (ls : List Label) (u : List Char), Stops isWordPart
      (numbered (fun _ l => [',', ' '] ++ Label.text l) 0 ls ++ ')' :: u) := by
    intro ls u
    cases ls <;> exact .cons (by decide) _
  rintro ls ks _ _ hls hks ⟨u, rfl⟩ ⟨v, rfl⟩ h
  cases ls with
  | nil =>
      cases ks with
      | nil => exact ⟨rfl, h⟩
      | cons k ks =>
          rw [paramsText, paramsText, List.append_assoc] at h
          exact absurd h.symm (Label.text_ne (hks k List.mem_cons_self) (by decide) (by decide) _ _)
  | cons l ls =>
      obtain ⟨hl, hls⟩ := List.forall_mem_cons.mp hls
      cases ks with
      | nil =>
          rw [paramsText, paramsText, List.append_assoc] at h
          exact absurd h (Label.text_ne hl (by decide) (by decide) _ _)
      | cons k ks =>
          obtain ⟨hk, hks⟩ := List.forall_mem_cons.mp hks
          rw [paramsText, paramsText, List.append_assoc, List.append_assoc] at h
          obtain ⟨hlk, hrest⟩ := Label.tells_text hl hk (hstops ls u) (hstops ks v) h
          obtain ⟨hlks, huv⟩ := hothers hls hks (begins_cons ..) (begins_cons ..) hrest
          exact ⟨by rw [hlk, hlks], huv⟩

theorem tells_locals (first : Nat) :
    Tells (fun ls => ∀ l ∈ ls, l.Readable) (Begins '\n') (localsText first) := by
  have hslots : Tells (fun ls => ∀ l ∈ ls, l.Readable) (Begins '\n')
      (numbered (fun slot l => slotText slot ++ Label.text l) first) :=
    Label.tells_marked (c := ' ') (e := '\n') (fun _ => begins_cons ..) (by decide) (by decide) (by decide)
      first
  have hblank : ∀ (l : Label) (ls : List Label) (u v : List Char),
      localsText first (l :: ls) ++ u ≠ '\n' :: v := by
    intro l ls u v h
    exact absurd (List.cons.inj h).1 (by decide)
  rintro ls ks _ _ hls hks ⟨u, rfl⟩ ⟨v, rfl⟩ h
  cases ls with
  | nil =>
      cases ks with
      | nil => exact ⟨rfl, h⟩
      | cons k ks => exact absurd h.symm (hblank k ks _ u)
  | cons l ls =>
      cases ks with
      | nil => exact absurd h (hblank l ls _ v)
      | cons k ks =>
          rw [localsText, localsText, List.append_assoc, List.append_assoc] at h
          exact hslots hls hks (begins_cons ..) (begins_cons ..) (List.append_cancel_left h)

theorem tells_line (n : Nat) : Tells Readable (fun _ => True) (line n) := by
  intro f g u v hf hg _ _ h
  simp only [line, List.append_assoc, List.cons_append, List.nil_append] at h
  obtain ⟨hhead, h⟩ := Label.tells_text hf.head hg.head (.cons (by decide) _) (.cons (by decide) _)
    (List.append_cancel_left h)
  obtain ⟨hparams, h⟩ := tells_params hf.params hg.params (begins_cons ..) (begins_cons ..)
    (List.cons.inj h).2
  -- the slots of the locals start behind the parameters, which are the same by now
  rw [hparams] at h
  obtain ⟨hlocals, h⟩ := tells_locals _ hf.locals hg.locals (begins_cons ..) (begins_cons ..)
    (List.cons.inj h).2
  exact ⟨FunctionEntry.ext hhead hparams hlocals, (List.cons.inj h).2⟩

end FunctionEntry

/-- A global and its initial value, as the dump shows them. -/
@[ext]
structure GlobalEntry where
  label : Label
  value : Option Value

namespace GlobalEntry

def valueText : Option Value → List Char
  | some v => ' ' :: '=' :: ' ' :: v.text.toList
  | none => []

def line (n : Nat) (g : GlobalEntry) : List Char :=
  lineHead ['g', 'l', 'o', 'b', 'a', 'l'] n ++ g.label.text ++ valueText g.value ++ ['\n']

theorem tells_valueText : Tells (fun _ : Option Value => True) (Begins '\n') valueText := by
  have hblank : ∀ (x : Value) (u v : List Char), valueText (some x) ++ u ≠ '\n' :: v := by
    intro x u v h
    exact absurd (List.cons.inj h).1 (by decide)
  rintro x y _ _ _ _ ⟨u, rfl⟩ ⟨v, rfl⟩ h
  cases x with
  | none =>
      cases y with
      | none => exact ⟨rfl, h⟩
      | some y => exact absurd h.symm (hblank y _ u)
  | some x =>
      cases y with
      | none => exact absurd h (hblank x _ v)
      | some y =>
          simp only [valueText, List.cons_append, List.cons.injEq, true_and] at h
          obtain ⟨hxy, huv⟩ := tells_value trivial trivial (begins_cons ..) (begins_cons ..) h
          exact ⟨congrArg some hxy, huv⟩

theorem tells_line (n : Nat) : Tells (fun g : GlobalEntry => g.label.Readable) (fun _ => True) (line n) := by
  have hstops : ∀ (x : Option Value) (u : List Char), Stops isWordPart (valueText x ++ '\n' :: u) := by
    intro x u
    cases x <;> exact .cons (by decide) _
  intro g k u v hg hk _ _ h
  simp only [line, List.append_assoc, List.cons_append, List.nil_append] at h
  obtain ⟨hlabel, h⟩ := Label.tells_text hg hk (hstops _ u) (hstops _ v) (List.append_cancel_left h)
  obtain ⟨hvalue, h⟩ := tells_valueText trivial trivial (begins_cons ..) (begins_cons ..) h
  exact ⟨GlobalEntry.ext hlabel hvalue, (List.cons.inj h).2⟩

end GlobalEntry

/-! ## Listings -/

/-- What the dump shows of a container. -/
@[ext]
structure Listing where
  version : Nat
  structs : List StructEntry
  functions : List FunctionEntry
  globals : List GlobalEntry

namespace Listing

/-- What a dump begins with. -/
def versionHead : List Char := [';', ' ', 'a', 'i', 'n', ' ', 'v', 'e', 'r', 's', 'i', 'o', 'n', ' ']

def text (l : Listing) : List Char :=
  versionHead ++ (toString l.version).toList ++ '\n' ::
    (numbered StructEntry.line 0 l.structs ++ numbered FunctionEntry.line 0 l.functions
      ++ numbered GlobalEntry.line 0 l.globals)

structure Readable (l : Listing) : Prop where
  structs : ∀ s ∈ l.structs, s.Readable
  functions : ∀ f ∈ l.functions, f.Readable
  globals : ∀ g ∈ l.globals, g.label.Readable

/-- Lines that begin with a letter of their own are told, in front of what does not begin with it. -/
theorem tells_lines {α : Type} {P : α → Prop} {write : Nat → α → List Char} {c : Char}
    (hline : ∀ n, Tells P (fun _ => True) (write n)) (hhead : ∀ n a, (write n a).head? = some c) :
    Tells (fun as => ∀ a ∈ as, P a) (fun u => u.head? ≠ some c) (numbered write 0) :=
  Tells.numbered hline (fun _ _ _ _ => trivial) (fun _ _ => trivial)
    (fun n a u v _ hv h => hv (by rw [← h, List.head?_append, hhead]; rfl)) 0

/-- What lines begin with, with other lines behind them. -/
theorem head?_lines {α : Type} {write : Nat → α → List Char} {c d : Char}
    (hhead : ∀ n a, (write n a).head? = some c) (hne : c ≠ d) (as : List α) {u : List Char}
    (hu : u.head? ≠ some d) : (numbered write 0 as ++ u).head? ≠ some d := by
  cases as with
  | nil => exact hu
  | cons a as =>
      rw [numbered, List.append_assoc, List.head?_append, hhead]
      simpa using hne

/-- **The text of a listing tells the listing.** -/
theorem text_inj {l k : Listing} (hl : l.Readable) (hk : k.Readable) (h : l.text = k.text) : l = k := by
  have hstruct : ∀ n s, (StructEntry.line n s).head? = some 's' := fun _ _ => rfl
  have hfunction : ∀ n f, (FunctionEntry.line n f).head? = some 'f' := fun _ _ => rfl
  have hglobal : ∀ n g, (GlobalEntry.line n g).head? = some 'g' := fun _ _ => rfl
  have hnil : ∀ c, ([] : List Char).head? ≠ some c := fun c hc => nomatch hc
  simp only [text, List.append_assoc] at h
  obtain ⟨hversion, h⟩ := tells_number trivial trivial (.cons (by decide) _) (.cons (by decide) _)
    (List.append_cancel_left h)
  have hbehind : ∀ gs : List GlobalEntry, ∀ c, 'g' ≠ c →
      (numbered GlobalEntry.line 0 gs).head? ≠ some c := by
    intro gs c hne
    have hlines := head?_lines hglobal hne gs (hnil c)
    rwa [List.append_nil] at hlines
  obtain ⟨hstructs, h⟩ := tells_lines StructEntry.tells_line hstruct hl.structs hk.structs
    (head?_lines hfunction (by decide) _ (hbehind _ _ (by decide)))
    (head?_lines hfunction (by decide) _ (hbehind _ _ (by decide))) (List.cons.inj h).2
  obtain ⟨hfunctions, h⟩ := tells_lines FunctionEntry.tells_line hfunction hl.functions hk.functions
    (hbehind _ _ (by decide)) (hbehind _ _ (by decide)) h
  obtain ⟨hglobals, _⟩ := tells_lines GlobalEntry.tells_line hglobal hl.globals hk.globals
    (hnil 'g') (hnil 'g') (congrArg (· ++ []) h)
  exact Listing.ext hversion hstructs hfunctions hglobals

end Listing

end Jaf
