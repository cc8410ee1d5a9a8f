import LarkX.Evaluate.Account

/-!
# The grammar of account names

`is_valid_account_name` takes a name apart one label at a time, and looks at the first and last
character of what is left and at the last one of the label. `IsAccountName` is the grammar it
decides: labels between dots, each with a lower-case letter in front and a letter or digit at its
end, and limits that the name and all its parents keep.
-/

namespace LarkX

variable {crypto : Crypto} {name label : Name}

/-- A lower-case letter of ASCII. -/
def isLowerAlpha (c : Char) : Bool :=
  'a' ≤ c && c ≤ 'z'

/-- One label of an account name. -/
structure IsLabel (label : Name) : Prop where
  first : ∃ c ∈ label.head?, isLowerAlpha c = true
  last : ∃ c ∈ label.getLast?, isLowerAlnum c = true
  all : ∀ c ∈ label, isLowerAlnum c = true ∨ c = '-'

/-- A name, or one that follows a dot in it. -/
def IsDotSuffix (name suffix : Name) : Prop :=
  suffix = name ∨ ∃ front, name = front ++ '.' :: suffix

/-- An account name: labels between dots, where the name and all that follows one of its dots
have a length within the limits and do not parse as an address or a key. -/
structure IsAccountName (crypto : Crypto) (name : Name) : Prop where
  labels : ∀ label ∈ name.splitOn '.', IsLabel label
  length : ∀ suffix, IsDotSuffix name suffix →
    btsBlockchainMinNameSize ≤ suffix.length ∧ suffix.length ≤ btsBlockchainMaxNameSize
  parses : ∀ suffix, IsDotSuffix name suffix → crypto.parsesAsAddress suffix = false

/-! ### The first dot -/

theorem getParentAccountName_eq_none : getParentAccountName name = none ↔ '.' ∉ name := by
  induction name with
  | nil => exact ⟨fun _ => List.not_mem_nil, fun _ => rfl⟩
  | cons c name ih =>
    rw [getParentAccountName, List.mem_cons, not_or]
    split
    · rename_i hc
      exact ⟨nofun, fun h => absurd hc.symm h.1⟩
    · rename_i hc
      rw [ih]
      exact ⟨fun h => ⟨fun heq => hc heq.symm, h⟩, fun h => h.2⟩

theorem subName_cons (c : Char) (name : Name) :
    subName (c :: name) = if c = '.' then [] else c :: subName name := by
  rw [subName, List.takeWhile_cons]
  by_cases hc : c = '.'
  · rw [if_pos hc, hc]
    rfl
  · rw [if_neg hc, decide_eq_true hc]
    rfl

theorem subName_of_not_mem (h : '.' ∉ name) : subName name = name := by
  induction name with
  | nil => rfl
  | cons c name ih =>
    rw [List.mem_cons, not_or] at h
    rw [subName_cons, if_neg (Ne.symm h.1), ih h.2]

theorem not_mem_subName (name : Name) : '.' ∉ subName name := by
  induction name with
  | nil => exact List.not_mem_nil
  | cons c name ih =>
    rw [subName_cons]
    split
    · exact List.not_mem_nil
    · rename_i hc
      rw [List.mem_cons, not_or]
      exact ⟨fun heq => hc heq.symm, ih⟩

/-- A name with a parent is its first label, a dot, and the parent. -/
theorem subName_append {parent : Name} (h : getParentAccountName name = some parent) :
    subName name ++ '.' :: parent = name := by
  induction name with
  | nil => cases h
  | cons c name ih =>
    rw [getParentAccountName] at h
    rw [subName_cons]
    split at h
    · rename_i hc
      cases h
      rw [if_pos hc, hc]
      rfl
    · rename_i hc
      rw [if_neg hc, List.cons_append, ih h]

/-! ### One label -/

/-- A letter that is allowed in a label is a lower-case one. -/
theorem isLowerAlpha_of_isAlphaC {c : Char} (halpha : isAlphaC c = true)
    (hlabel : isLowerAlnum c = true ∨ c = '-') : isLowerAlpha c = true := by
  simp only [isLowerAlpha, isAlphaC, isLowerAlnum, Bool.or_eq_true, Bool.and_eq_true,
    decide_eq_true_eq] at *
  rcases hlabel with hlabel | rfl
  · obtain hlower | ⟨hA, hZ⟩ := halpha
    · exact hlower
    · obtain ⟨ha, -⟩ | ⟨-, h9⟩ := hlabel
      · exact absurd (Char.le_trans ha hZ : 'a' ≤ 'Z') (by decide)
      · exact absurd (Char.le_trans hA h9 : 'A' ≤ '9') (by decide)
  · exact absurd halpha (by decide)

theorem isLabel_iff : IsLabel label ↔ label.head?.any isAlphaC = true ∧
    label.getLast?.any isLowerAlnum = true ∧
    label.all (fun c => isLowerAlnum c || c == '-') = true := by
  simp only [Option.any_eq_true, List.all_eq_true, Bool.or_eq_true, beq_iff_eq]
  constructor
  · rintro ⟨⟨c, hc, hlower⟩, hlast, hall⟩
    refine ⟨⟨c, hc, ?_⟩, hlast, hall⟩
    rw [isAlphaC, ← isLowerAlpha, hlower]
    rfl
  · rintro ⟨⟨c, hc, halpha⟩, hlast, hall⟩
    -- an upper-case letter in front is refused with the other characters of the label
    exact ⟨⟨c, hc, isLowerAlpha_of_isAlphaC halpha (hall c (List.mem_of_mem_head? hc))⟩, hlast,
      hall⟩

/-! ### The grammar, one label at a time -/

/-- The limits on a name and on what it parses as. -/
def Bounded (crypto : Crypto) (name : Name) : Prop :=
  (btsBlockchainMinNameSize ≤ name.length ∧ name.length ≤ btsBlockchainMaxNameSize) ∧
    crypto.parsesAsAddress name = false

/-- A name without a dot is one label. -/
theorem isAccountName_of_not_mem (hdot : '.' ∉ name) :
    IsAccountName crypto name ↔ IsLabel name ∧ Bounded crypto name := by
  have hsuffix : ∀ suffix, IsDotSuffix name suffix → suffix = name := by
    rintro suffix (rfl | ⟨front, rfl⟩)
    · rfl
    · exact absurd (List.mem_append_right _ List.mem_cons_self) hdot
  constructor
  · rintro ⟨hlabels, hlength, hparses⟩
    rw [List.splitOn_eq_singleton hdot] at hlabels
    exact ⟨hlabels name List.mem_cons_self, hlength name (Or.inl rfl), hparses name (Or.inl rfl)⟩
  · rintro ⟨hlabel, hlength, hparses⟩
    refine ⟨fun label hmem => ?_, fun suffix h => ?_, fun suffix h => ?_⟩
    · rw [List.splitOn_eq_singleton hdot] at hmem
      exact List.mem_singleton.1 hmem ▸ hlabel
    · exact hsuffix suffix h ▸ hlength
    · exact hsuffix suffix h ▸ hparses

/-- What follows a dot of `label.parent`, where the label has none. -/
theorem isDotSuffix_append {parent suffix : Name} (hdot : '.' ∉ label) :
    IsDotSuffix (label ++ '.' :: parent) suffix ↔
      suffix = label ++ '.' :: parent ∨ IsDotSuffix parent suffix := by
  refine or_congr_right ⟨?_, ?_⟩
  · rintro ⟨front, heq⟩
    obtain ⟨mid, hfront, hparent⟩ | ⟨mid, hlabel, hrest⟩ := List.append_eq_append_iff.1 heq
    · cases mid with
      | nil =>
        cases hparent
        exact Or.inl rfl
      | cons c mid =>
        cases hparent
        exact Or.inr ⟨mid, rfl⟩
    · cases mid with
      | nil =>
        cases hrest
        exact Or.inl rfl
      | cons c mid =>
        rw [List.cons_append] at hrest
        cases hrest
        exact absurd (hlabel ▸ List.mem_append_right _ List.mem_cons_self) hdot
  · rintro (rfl | ⟨front, rfl⟩)
    · exact ⟨label, rfl⟩
    · exact ⟨label ++ '.' :: front, by rw [List.append_assoc, List.cons_append]⟩

/-- A name with a dot is a label and a name, apart from its own length and what it parses as. -/
theorem isAccountName_append (crypto : Crypto) (parent : Name) (hdot : '.' ∉ label) :
    IsAccountName crypto (label ++ '.' :: parent) ↔
      IsLabel label ∧ Bounded crypto (label ++ '.' :: parent) ∧ IsAccountName crypto parent := by
  have hsplit := List.splitOn_append_cons_self_of_not_mem hdot parent
  constructor
  · rintro ⟨hlabels, hlength, hparses⟩
    rw [hsplit] at hlabels
    refine ⟨hlabels label List.mem_cons_self, ⟨hlength _ (Or.inl rfl), hparses _ (Or.inl rfl)⟩,
      fun l hl => hlabels l (List.mem_cons_of_mem _ hl), fun suffix h => ?_, fun suffix h => ?_⟩
    · exact hlength suffix ((isDotSuffix_append hdot).2 (Or.inr h))
    · exact hparses suffix ((isDotSuffix_append hdot).2 (Or.inr h))
  · rintro ⟨hlabel, ⟨hlength, hparses⟩, hparent⟩
    refine ⟨fun l hl => ?_, fun suffix h => ?_, fun suffix h => ?_⟩
    · rw [hsplit] at hl
      rcases List.mem_cons.1 hl with rfl | hl
      · exact hlabel
      · exact hparent.labels l hl
    · rcases (isDotSuffix_append hdot).1 h with rfl | h
      · exact hlength
      · exact hparent.length suffix h
    · rcases (isDotSuffix_append hdot).1 h with rfl | h
      · exact hparses
      · exact hparent.parses suffix h

/-! ### What the code decides -/

theorem isValidAccountLabel_iff : isValidAccountLabel crypto name = true ↔
    Bounded crypto name ∧ name.head?.any isAlphaC = true ∧
      name.getLast?.any isLowerAlnum = true ∧ (subName name).getLast?.any isLowerAlnum = true ∧
      (subName name).all (fun c => isLowerAlnum c || c == '-') = true := by
  simp only [isValidAccountLabel, Bounded, Bool.and_eq_true, decide_eq_true_eq,
    Bool.not_eq_true', and_assoc]
  tauto

/-- The last character of a name that is accepted. -/
theorem getLast?_of_isValid {fuel : ℕ} (h : isValidAccountNameFuel crypto fuel name = true) :
    name.getLast?.any isLowerAlnum = true := by
  cases fuel with
  | zero => cases h
  | succ fuel =>
    rw [isValidAccountNameFuel, Bool.and_eq_true, isValidAccountLabel_iff] at h
    exact h.1.2.2.1

/-- With fuel for all its labels, the code accepts the names of the grammar. -/
theorem isValidAccountNameFuel_iff {fuel : ℕ} (h : name.length < fuel) :
    isValidAccountNameFuel crypto fuel name = true ↔ IsAccountName crypto name := by
  induction fuel generalizing name with
  | zero => exact absurd h (Nat.not_lt_zero _)
  | succ fuel ih =>
    rw [isValidAccountNameFuel, Bool.and_eq_true, isValidAccountLabel_iff]
    cases hparent : getParentAccountName name with
    | none =>
      have hdot := getParentAccountName_eq_none.1 hparent
      rw [isAccountName_of_not_mem hdot, isLabel_iff, subName_of_not_mem hdot]
      tauto
    | some parent =>
      have hname := subName_append hparent
      have hdot := not_mem_subName name
      have hlen : parent.length < fuel := by
        have := congrArg List.length hname
        rw [List.length_append, List.length_cons] at this
        omega
      have hgrammar := isAccountName_append crypto parent hdot
      rw [hname] at hgrammar
      rw [hgrammar, isLabel_iff]
      cases parent with
      | nil =>
        -- a dot at the end is no letter or digit, and leaves an empty label
        have hlast : name.getLast? = some '.' := by rw [← hname, List.getLast?_append]; rfl
        constructor
        · rintro ⟨⟨-, -, hend, -⟩, -⟩
          rw [hlast] at hend
          exact absurd hend (by decide)
        · rintro ⟨-, -, hempty⟩
          obtain ⟨c, hc, -⟩ := (hempty.labels [] List.mem_cons_self).first
          cases hc
      | cons c parent =>
        have hlast : name.getLast? = (c :: parent).getLast? := by
          rw [← hname, List.getLast?_append, List.getLast?_cons_cons, List.getLast?_cons]
          rfl
        have hhead : name.head?.any isAlphaC = true ↔
            (subName name).head?.any isAlphaC = true := by
          conv_lhs => rw [← hname]
          cases subName name with
          | nil => exact ⟨fun h => absurd (show isAlphaC '.' = true from h) (by decide), nofun⟩
          | cons d sub => exact Iff.rfl
        rw [hhead, hlast, ← ih hlen]
        constructor
        · rintro ⟨⟨hbounded, hfirst, -, hend, hall⟩, hrest⟩
          exact ⟨⟨hfirst, hend, hall⟩, hbounded, hrest⟩
        · rintro ⟨⟨hfirst, hend, hall⟩, hbounded, hrest⟩
          exact ⟨⟨hbounded, hfirst, getLast?_of_isValid hrest, hend, hall⟩, hrest⟩

/-- **The grammar of account names.** The code accepts the strings of the grammar and no others,
so the parents it finds for a name that it accepts are accepted too. -/
theorem isValidAccountName_iff_isAccountName (crypto : Crypto) (name : Name) :
    (isValidAccountName crypto name = true ↔ IsAccountName crypto name) ∧
      (isValidAccountName crypto name = true → ∀ parent ∈ getParentAccountName name,
        isValidAccountName crypto parent = true) := by
  have hiff : ∀ name, isValidAccountName crypto name = true ↔ IsAccountName crypto name :=
    fun name => isValidAccountNameFuel_iff name.length.lt_succ_self
  refine ⟨hiff name, fun h parent hparent => ?_⟩
  have hname := (hiff name).1 h
  rw [← subName_append hparent, isAccountName_append crypto parent (not_mem_subName name)] at hname
  exact (hiff parent).2 hname.2.2

end LarkX
