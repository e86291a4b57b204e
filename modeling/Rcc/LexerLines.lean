import Rcc.Lexer
import Rcc.Patches

/-!
# Line numbers of tokens

`tokenize` counts lines for `tok->lineno` as it goes; `compute_line_no` counts them
afterwards, from the last line marker or, if there is none, from the beginning. What
both should give is `assigned`: the number of the last marker before a token, and the
lines that ended since.

The counter is ahead of the text in two places. The end of a marker's line is counted
with the marker and once more as a blank, and the blanks that are looked through for
another string literal are counted with the string and again. It never falls behind,
so the end of the file shows whether it was ever ahead.
-/

namespace Rcc.Lexer

/-! ## On one line -/

theorem head_ne {f : Char → Bool} {c : Char} {p : Text} (hf : f '\n' = false) (h : headIs f (c :: p) = true) :
    c ≠ '\n' := by
  intro hc
  rw [hc] at h
  exact absurd (hf.symm.trans h) nofun

/-- `rest` is behind a part of `p` in which no line ends. -/
def Past (p rest : Text) : Prop := ∃ t, p = t ++ rest ∧ '\n' ∉ t

variable {p q rest : Text}

namespace Past

theorem refl (p : Text) : Past p p := ⟨[], rfl, List.not_mem_nil⟩

theorem trans (h : Past p q) (h' : Past q rest) : Past p rest := by
  obtain ⟨t, rfl, ht⟩ := h
  obtain ⟨t', rfl, ht'⟩ := h'
  exact ⟨t ++ t', (List.append_assoc t t' rest).symm, fun hmem => (List.mem_append.mp hmem).elim ht ht'⟩

theorem cons {c : Char} (hc : c ≠ '\n') (h : Past p rest) : Past (c :: p) rest := by
  obtain ⟨t, rfl, ht⟩ := h
  exact ⟨c :: t, rfl, fun hmem => (List.mem_cons.mp hmem).elim (fun he => hc he.symm) ht⟩

theorem dropWhile {f : Char → Bool} (hf : f '\n' = false) (p : Text) : Past p (p.dropWhile f) := by
  refine ⟨p.takeWhile f, List.takeWhile_append_dropWhile.symm, fun hmem => ?_⟩
  exact absurd (hf.symm.trans (List.mem_takeWhile_imp hmem)) nofun

theorem tail {f : Char → Bool} (hf : f '\n' = false) (h : headIs f p = true) : Past p p.tail := by
  cases p with
  | nil => exact absurd h nofun
  | cons c p => exact cons (head_ne hf h) (refl p)

theorem drop {n : Nat} (h : '\n' ∉ p.take n) : Past p (p.drop n) := ⟨p.take n, (List.take_append_drop n p).symm, h⟩

theorem suffix (h : Past p rest) : rest <:+ p := by
  obtain ⟨t, rfl, _⟩ := h
  exact List.suffix_append t rest

end Past

/-! ## Numbers and identifiers -/

theorem past_exponent {e E : Char} (he : e ≠ '\n') (hE : E ≠ '\n') (p : Text) : Past p (exponent e E p).2 := by
  rw [exponent.eq_def]
  split
  · next c rest =>
      split
      · next h =>
          have hc : c ≠ '\n' := by
            rintro rfl
            exact (Bool.or_eq_true_iff.mp h).elim (fun h => he (of_decide_eq_true h).symm)
              fun h => hE (of_decide_eq_true h).symm
          refine .cons hc ?_
          split
          · next hsign => exact (Past.tail rfl hsign).trans (.dropWhile rfl _)
          · exact .dropWhile rfl _
      · exact .refl _
  · exact .refl _

theorem past_suffix (isFloat : Bool) (p : Text) : Past p (suffix isFloat p).2 := by
  rw [Lexer.suffix]
  split
  · next h => exact .tail rfl h
  · split
    · next h => exact .tail rfl (Bool.and_eq_true_iff.mp h).1
    · exact .dropWhile rfl _

theorem past_fraction (may : Bool) {digit : Char → Bool} (hd : digit '\n' = false) (p : Text) :
    Past p (fraction may digit p).2 := by
  rw [fraction]
  split
  · next h => exact (Past.tail rfl (Bool.and_eq_true_iff.mp h).1).trans (.dropWhile hd _)
  · exact .refl p

theorem past_numberRest (may : Bool) {digit : Char → Bool} (hd : digit '\n' = false) {e E : Char} (he : e ≠ '\n')
    (hE : E ≠ '\n') (p : Text) : Past p (numberRest may digit e E p).2 :=
  (past_fraction may hd p).trans ((past_exponent he hE _).trans (past_suffix _ _))

theorem past_decimal (p : Text) : Past p (decimal p).2 :=
  (Past.dropWhile rfl p).trans (past_numberRest _ rfl (by decide) (by decide) _)

theorem past_number (p : Text) : Past p (number p).2 := by
  rw [number.eq_def]
  split
  · next x rest =>
      have hcons : x ≠ '\n' → ∀ {r}, Past rest r → Past ('0' :: x :: rest) r := fun hx _ h =>
        .cons (by decide) (.cons hx h)
      split
      · next hx =>
          refine hcons (fun hn => absurd (hn ▸ hx) (by decide)) ?_
          exact (Past.dropWhile rfl rest).trans (past_numberRest _ rfl (by decide) (by decide) _)
      · split
        · next hx =>
            refine hcons (fun hn => absurd (hn ▸ hx) (by decide)) ?_
            exact (Past.dropWhile rfl rest).trans (past_suffix _ _)
        · exact past_decimal _
  · exact past_decimal _

theorem not_mem_continuation {n c c' : Nat} (h : continuation n c p = some c') : '\n' ∉ p.take n := by
  induction n generalizing c p with
  | zero => exact List.not_mem_nil
  | succ n ih =>
      cases p with
      | nil => exact absurd h nofun
      | cons b p =>
          obtain ⟨hb, h⟩ := Option.ite_none_right_eq_some.mp h
          intro hmem
          rcases List.mem_cons.mp hmem with rfl | hmem
          · exact absurd hb (by decide)
          · exact ih h hmem

theorem not_mem_decodeUtf8 {c len : Nat} (h : decodeUtf8 p = some (c, len))
    (hp : headIs (fun b => 128 ≤ b.toNat) p = true) : '\n' ∉ p.take len := by
  cases p with
  | nil => exact absurd hp nofun
  | cons b p =>
      have hb : 128 ≤ b.toNat := of_decide_eq_true hp
      have hcons : ∀ n, '\n' ∉ p.take n → '\n' ∉ (b :: p).take (n + 1) := fun n hn hmem => by
        rcases List.mem_cons.mp hmem with rfl | hmem
        · exact absurd hb (by decide)
        · exact hn hmem
      have hmap : ∀ {o : Option Nat} {n : Nat}, o.map (fun x => (x, n)) = some (c, len) → o = some c ∧ len = n :=
        fun {o n} h => by
          obtain ⟨x, rfl, hx⟩ := Option.map_eq_some_iff.mp h
          obtain ⟨rfl, rfl⟩ := Prod.mk.inj hx
          exact ⟨rfl, rfl⟩
      rw [decodeUtf8, if_neg (Nat.not_lt.mpr hb)] at h
      split at h
      · obtain ⟨hbytes, rfl⟩ := hmap h
        exact hcons 3 (not_mem_continuation hbytes)
      · split at h
        · obtain ⟨hbytes, rfl⟩ := hmap h
          exact hcons 2 (not_mem_continuation hbytes)
        · split at h
          · obtain ⟨hbytes, rfl⟩ := hmap h
            exact hcons 1 (not_mem_continuation hbytes)
          · exact absurd h nofun

theorem past_identRest {uc : Unicode} {n : Nat} (h : identRest uc n p = some rest) : Past p rest := by
  induction n generalizing p with
  | zero => exact absurd h nofun
  | succ n ih =>
      obtain ⟨⟨c, len⟩, hdecode, h⟩ := Option.bind_eq_some_iff.mp h
      simp only at h
      split at h
      · next hcont =>
          refine Past.trans (.drop ?_) (ih h)
          cases p with
          | nil =>
              rw [List.take_nil]
              exact List.not_mem_nil
          | cons b p =>
              by_cases hb : 128 ≤ b.toNat
              · exact not_mem_decodeUtf8 hdecode (decide_eq_true hb)
              · rw [decodeUtf8, if_pos (Nat.lt_of_not_le hb)] at hdecode
                obtain ⟨rfl, rfl⟩ := Prod.mk.inj (Option.some_inj.mp hdecode)
                intro hmem
                obtain rfl := List.mem_singleton.mp hmem
                rcases Bool.or_eq_true_iff.mp hcont with hcont | hcont
                · have hident : isIdent2 '\n' = true := hcont
                  exact absurd hident (by decide)
                · exact absurd (uc.ascii _ (by decide) hcont) (by decide)
      · rw [← Option.some_inj.mp h]
        exact .refl p

/-! ## Strings and characters -/

/-- No backslash stands before the end of a line, as `splice_lines_with_counts` leaves it. -/
def Spliced (p : Text) : Prop := ¬ ['\\', '\n'] <:+: p

theorem Spliced.suffix (h : Spliced p) (hrest : rest <:+ p) : Spliced rest :=
  fun hin => h (hin.trans hrest.isInfix)

theorem Spliced.escaped {c : Char} (h : Spliced ('\\' :: c :: p)) : c ≠ '\n' := by
  rintro rfl
  exact h ⟨[], p, rfl⟩

theorem past_readEscapedChar {c v : Char} (hc : c ≠ '\n') (h : readEscapedChar (c :: p) = some (v, rest)) :
    Past (c :: p) rest := by
  rw [readEscapedChar] at h
  split at h
  · split at h
    · obtain ⟨-, rfl⟩ := Prod.mk.inj (Option.some_inj.mp h)
      exact .cons hc (.dropWhile rfl p)
    · exact absurd h nofun
  · simp only at h
    split at h
    · obtain ⟨-, rfl⟩ := Prod.mk.inj (Option.some_inj.mp h)
      -- at most three digits are taken
      have hprefix : (c :: p.take 2).takeWhile (fun c => '0' ≤ c && c ≤ '7') <+: c :: p :=
        (List.takeWhile_prefix _).trans (List.take_prefix 3 (c :: p))
      refine .drop fun hmem => ?_
      rw [← List.prefix_iff_eq_take.mp hprefix] at hmem
      exact absurd (List.mem_takeWhile_imp hmem) (by decide)
    · obtain ⟨-, rfl⟩ := Prod.mk.inj (Option.some_inj.mp h)
      exact .cons hc (.refl p)

theorem past_universal {n : Nat} {val : Text} (h : stringChar.universal n p = some (val, rest)) : Past p rest := by
  obtain ⟨hdigits, h⟩ := Option.ite_none_right_eq_some.mp h
  obtain ⟨-, rfl⟩ := Prod.mk.inj (Option.some_inj.mp h)
  refine .drop fun hmem => ?_
  exact absurd (List.all_eq_true.mp (Bool.and_eq_true_iff.mp hdigits).2 _ hmem) (by decide)

theorem past_stringChar {c : Char} {val : Text} (hp : Spliced (c :: p)) (hc : c ≠ '\n')
    (h : stringChar (c :: p) = some (val, rest)) : Past (c :: p) rest := by
  rw [stringChar.eq_def] at h
  split at h
  · next heq =>
      rw [heq]
      exact .cons (by decide) (.cons (by decide) (past_universal h))
  · next heq =>
      rw [heq]
      exact .cons (by decide) (.cons (by decide) (past_universal h))
  · next q _ _ heq =>
      obtain ⟨⟨v, r⟩, hread, h⟩ := Option.map_eq_some_iff.mp h
      obtain ⟨-, rfl⟩ := Prod.mk.inj h
      rw [heq] at hp ⊢
      refine .cons (by decide) ?_
      cases q with
      | nil => exact absurd hread nofun
      | cons d q => exact past_readEscapedChar hp.escaped hread
  · next heq =>
      obtain ⟨rfl, rfl⟩ := List.cons.inj heq
      obtain ⟨-, rfl⟩ := Prod.mk.inj (Option.some_inj.mp h)
      exact .cons hc (.refl _)
  · next heq => exact absurd heq nofun

theorem past_stringBody {n : Nat} {val : Text} (hp : Spliced p) (h : stringBody n p = some (val, rest)) :
    Past p rest := by
  induction n generalizing p val with
  | zero => exact absurd h nofun
  | succ n ih =>
      cases p with
      | nil => exact absurd h nofun
      | cons c p =>
          rw [stringBody] at h
          split at h
          · next hc =>
              obtain ⟨-, rfl⟩ := Prod.mk.inj (Option.some_inj.mp h)
              exact .cons (by rw [hc]; decide) (.refl p)
          · split at h
            · exact absurd h nofun
            · next hc =>
                obtain ⟨⟨v, q⟩, hchar, h⟩ := Option.bind_eq_some_iff.mp h
                obtain ⟨⟨vals, r⟩, hbody, h⟩ := Option.map_eq_some_iff.mp h
                obtain ⟨-, rfl⟩ := Prod.mk.inj h
                have hpast := past_stringChar hp hc hchar
                exact hpast.trans (ih (hp.suffix hpast.suffix) hbody)

theorem past_charBody {n : Nat} {last c : Char} (hp : Spliced p) (h : charBody n last p = some (c, rest)) :
    Past p rest := by
  induction n generalizing p last with
  | zero => exact absurd h nofun
  | succ n ih =>
      cases p with
      | nil => exact absurd h nofun
      | cons d p =>
          rw [charBody] at h
          split at h
          · next hd =>
              obtain ⟨-, rfl⟩ := Prod.mk.inj (Option.some_inj.mp h)
              exact .cons (by rw [hd]; decide) (.refl p)
          · split at h
            · exact absurd h nofun
            · next hd =>
                split at h
                · next hback =>
                    subst hback
                    obtain ⟨⟨v, q⟩, hread, hbody⟩ := Option.bind_eq_some_iff.mp h
                    cases p with
                    | nil => exact absurd hread nofun
                    | cons e p =>
                        have hpast := past_readEscapedChar hp.escaped hread
                        exact (Past.cons (by decide) hpast).trans
                          (ih (hp.suffix (Past.cons (by decide) hpast).suffix) hbody)
                · exact .cons hd (ih (hp.suffix (List.suffix_cons _ _)) h)

/-- The lines that are counted with a string are those in it, and those of the blanks behind it. -/
theorem counted_stringPieces {n counted : Nat} {val : Text} (hp : Spliced p)
    (h : stringPieces n p = some (val, rest, counted)) :
    ∃ t, p = t ++ rest ∧ counted = t.count '\n' + (rest.takeWhile isspace).count '\n' := by
  induction n generalizing p val counted with
  | zero => exact absurd h nofun
  | succ n ih =>
      obtain ⟨⟨v, r⟩, hbody, hgo⟩ := Option.bind_eq_some_iff.mp h
      obtain ⟨t, rfl, ht⟩ := past_stringBody hp hbody
      have hblank : r = r.takeWhile isspace ++ r.dropWhile isspace := List.takeWhile_append_dropWhile.symm
      simp only at hgo
      split at hgo
      · next q heq =>
          obtain ⟨⟨vals, r', more⟩, hpieces, heq'⟩ := Option.map_eq_some_iff.mp hgo
          simp only [Prod.mk.injEq] at heq'
          obtain ⟨-, rfl, rfl⟩ := heq'
          -- the quote of the next piece, and what may be before it
          obtain ⟨pre, hpre, hnone⟩ : ∃ pre, r.dropWhile isspace = pre ++ q ∧ '\n' ∉ pre := by
            split at heq
            · next hL =>
                cases hd : r.dropWhile isspace with
                | nil =>
                    rw [hd] at heq
                    exact absurd heq nofun
                | cons c s =>
                    rw [hd] at heq hL
                    refine ⟨[c, '"'], by rw [show s = '"' :: q from heq]; rfl, fun hmem => ?_⟩
                    rcases List.mem_cons.mp hmem with heq | hmem
                    · exact head_ne rfl (Bool.and_eq_true_iff.mp hL).1 heq.symm
                    · exact absurd (List.mem_singleton.mp hmem) (by decide)
            · exact ⟨['"'], heq, by decide⟩
          have hq : q <:+ t ++ r := by
            rw [hblank, hpre]
            exact ⟨t ++ (r.takeWhile isspace ++ pre), by simp only [List.append_assoc]⟩
          obtain ⟨t', rfl, rfl⟩ := ih (hp.suffix hq) hpieces
          refine ⟨t ++ (r.takeWhile isspace ++ (pre ++ t')), ?_, ?_⟩
          · conv => lhs; rw [hblank, hpre]
            simp only [List.append_assoc]
          · rw [List.count_append, List.count_append, List.count_append, List.count_eq_zero.mpr ht,
              List.count_eq_zero.mpr hnone]
            omega
      · obtain ⟨-, heq⟩ := Prod.mk.inj (Option.some_inj.mp hgo)
        obtain ⟨rfl, rfl⟩ := Prod.mk.inj heq
        exact ⟨t, rfl, by rw [List.count_eq_zero.mpr ht, Nat.zero_add]⟩

/-! ## Lexemes -/

/-- A lexeme, its text, and what is behind it. -/
def Lexeme.Fits (t rest : Text) : Lexeme → Prop
  | .marker _ _ offset ended => 0 < offset ∧ offset ≤ t.length ∧ '\n' ∉ t.drop offset ∧ (ended = true ↔ rest = [])
  | .token _ => '\n' ∉ t
  | .char _ pre => '\n' ∉ t ∧ pre ≤ t.length
  | .string _ pre counted =>
      counted = t.count '\n' + (rest.takeWhile isspace).count '\n' ∧ ∀ c, pre = some c → 0 < c.toNat
  | _ => True

variable {uc : Unicode} {l : Lexeme}

theorem afterComment_suffix (h : afterComment p = some rest) : rest <:+ p := by
  induction p with
  | nil => exact absurd h nofun
  | cons c p ih =>
      rw [afterComment.eq_def] at h
      split at h
      · next heq =>
          obtain ⟨rfl, rfl⟩ := List.cons.inj heq
          rw [← Option.some_inj.mp h]
          exact (List.suffix_cons _ _).trans (List.suffix_cons _ _)
      · next heq =>
          obtain ⟨rfl, rfl⟩ := List.cons.inj heq
          exact (ih h).trans (List.suffix_cons _ _)
      · exact absurd h nofun

theorem directive_fits (h : directive q p = some (l, rest)) : ∃ t, p = t ++ rest ∧ l.Fits t rest := by
  obtain ⟨_, h⟩ := Option.ite_none_left_eq_some.mp h
  obtain ⟨rfl, rfl⟩ := Prod.mk.inj (Option.some_inj.mp h)
  obtain ⟨t, ht⟩ := (List.tail_suffix (p.dropWhile (· ≠ '\n'))).trans (List.dropWhile_suffix _)
  exact ⟨t, ht.symm, trivial⟩

theorem hash_fits (hp : p ≠ []) (h : hash p = some (l, rest)) : ∃ t, p = t ++ rest ∧ l.Fits t rest := by
  rw [hash] at h
  simp only at h
  split at h
  · next hmark =>
      obtain ⟨rfl, rfl⟩ := Prod.mk.inj (Option.some_inj.mp h)
      generalize hbehind : (((p.tail.dropWhile isBlank).dropWhile isdigit).dropWhile isBlank).tail.dropWhile (· ≠ '"') =
        behind at hmark ⊢
      have hsuffix : behind.tail <:+ p.tail := by
        rw [← hbehind]
        exact (List.tail_suffix _).trans ((List.dropWhile_suffix _).trans ((List.tail_suffix _).trans
          ((List.dropWhile_suffix _).trans ((List.dropWhile_suffix _).trans (List.dropWhile_suffix _)))))
      obtain ⟨c, q, rfl⟩ := List.exists_cons_of_ne_nil hp
      obtain ⟨t, ht⟩ := hsuffix
      have ht' : q = t ++ behind.tail := ht.symm
      have hlen : (c :: q).length - behind.tail.length = (c :: t).length := by
        rw [ht', List.length_cons, List.length_append, List.length_cons]
        omega
      refine ⟨c :: t ++ behind.tail.takeWhile (· ≠ '\n'), ?_, ?_, ?_, ?_, decide_eq_true_iff⟩
      · rw [List.append_assoc, List.takeWhile_append_dropWhile, ht']
        rfl
      · rw [hlen]
        exact Nat.succ_pos _
      · rw [hlen, List.length_append]
        exact Nat.le_add_right _ _
      · rw [hlen, List.drop_left]
        exact fun hmem => absurd (List.mem_takeWhile_imp hmem) (by decide)
  · exact directive_fits h

theorem identifier_fits {n : Nat} (hp : '\n' ∉ p.take n) (h : identifier uc p n = some (l, rest)) :
    ∃ t, p = t ++ rest ∧ l.Fits t rest := by
  obtain ⟨r, hr, h⟩ := Option.map_eq_some_iff.mp h
  obtain ⟨rfl, rfl⟩ := Prod.mk.inj h
  obtain ⟨t, ht, hnone⟩ := (Past.drop hp).trans (past_identRest hr)
  exact ⟨t, ht, hnone⟩

/-- A punctuator has no more characters than those that are compared. -/
theorem not_mem_readPunct (p : Text) : '\n' ∉ p.take (readPunct p) := by
  have hword : ∀ q : String, '\n' ∉ q.toList → startswith p q = true → '\n' ∉ p.take q.toList.length :=
    fun q hq h hmem => by
      rw [← List.prefix_iff_eq_take.mp (List.isPrefixOf_iff_prefix.mp h)] at hmem
      exact hq hmem
  rw [readPunct]
  split
  · next h => exact hword "..." (by decide) h
  · split
    · next h =>
        obtain ⟨q, hq, h⟩ := List.any_eq_true.mp h
        have hall : ∀ q ∈ ["<<=", ">>="], '\n' ∉ q.toList ∧ q.toList.length = 3 := by decide
        obtain ⟨hnone, hlen⟩ := hall q hq
        rw [← hlen]
        exact hword q hnone h
    · split
      · next h =>
          obtain ⟨q, hq, h⟩ := List.any_eq_true.mp h
          have hall : ∀ q ∈ ["==", "!=", "<=", ">=", "++", "--", "&&", "||", "->", "<<", ">>", "+=", "-=", "*=", "/=",
              "%=", "&=", "|=", "^="], '\n' ∉ q.toList ∧ q.toList.length = 2 := by decide
          obtain ⟨hnone, hlen⟩ := hall q hq
          rw [← hlen]
          exact hword q hnone h
      · split
        · next h =>
            cases p with
            | nil => exact List.not_mem_nil
            | cons c p => exact fun hmem => head_ne rfl h (List.mem_singleton.mp hmem).symm
        · exact List.not_mem_nil

theorem past_charPrefix (p : Text) : Past p (p.drop (charPrefix p)) := by
  rw [charPrefix]
  split
  · next h =>
      rw [List.drop_one]
      exact Past.tail rfl (Bool.and_eq_true_iff.mp h).1
  · exact .refl p

/-- A string begins behind its first quote. -/
theorem string_fits {n counted : Nat} {val : Text} {pre : Option Char} (hp : Spliced p) (hpast : Past p q)
    (h : stringPieces n q = some (val, rest, counted)) (hpre : ∀ c, pre = some c → 0 < c.toNat) :
    ∃ t, p = t ++ rest ∧ (Lexeme.string val pre counted).Fits t rest := by
  obtain ⟨t', ht', hcount⟩ := counted_stringPieces (hp.suffix hpast.suffix) h
  obtain ⟨t, ht, hnone⟩ := hpast
  refine ⟨t ++ t', by rw [List.append_assoc, ← ht', ← ht], ?_, hpre⟩
  rw [List.count_append, List.count_eq_zero.mpr hnone, Nat.zero_add]
  exact hcount

theorem quoted_fits (hp : Spliced p) (h : quoted p = some (l, rest)) : ∃ t, p = t ++ rest ∧ l.Fits t rest := by
  rw [quoted] at h
  split at h
  · next hq =>
      obtain ⟨⟨val, r, counted⟩, hpieces, h⟩ := Option.map_eq_some_iff.mp h
      obtain ⟨rfl, rfl⟩ := Prod.mk.inj h
      exact string_fits hp (.tail rfl hq) hpieces nofun
  · split at h
    · next hq =>
        obtain ⟨⟨val, r, counted⟩, hpieces, h⟩ := Option.map_eq_some_iff.mp h
        obtain ⟨rfl, rfl⟩ := Prod.mk.inj h
        obtain ⟨hL, hq⟩ := Bool.and_eq_true_iff.mp hq
        refine string_fits hp ((Past.tail rfl hL).trans (.tail rfl hq)) hpieces fun c hc => ?_
        obtain ⟨q, rfl⟩ := List.head?_eq_some_iff.mp hc
        refine Nat.pos_of_ne_zero fun hzero => ?_
        obtain rfl : c = Char.ofNat 0 := Char.toNat_inj.mp hzero
        have hno : isPrefixChar (Char.ofNat 0) = false := rfl
        exact absurd (hno.symm.trans hL) nofun
    · split at h
      · next hq =>
          obtain ⟨⟨c, r⟩, hbody, h⟩ := Option.map_eq_some_iff.mp h
          obtain ⟨rfl, rfl⟩ := Prod.mk.inj h
          have htail := Past.tail rfl hq
          have hbehind := htail.trans (past_charBody (hp.suffix (htail.suffix.trans (List.drop_suffix _ _))) hbody)
          have hlen := hbehind.suffix.length_le
          have hquote : charPrefix p < p.length := by
            refine Nat.lt_of_not_le fun hle => ?_
            rw [List.drop_eq_nil_of_le hle] at hq
            exact absurd hq nofun
          obtain ⟨t, ht, hnone⟩ := (past_charPrefix p).trans hbehind
          have hsum := congrArg List.length ht
          rw [List.length_append] at hsum
          rw [List.length_drop] at hlen
          exact ⟨t, ht, hnone, by omega⟩
      · obtain ⟨hne, h⟩ := Option.ite_none_left_eq_some.mp h
        obtain ⟨rfl, rfl⟩ := Prod.mk.inj (Option.some_inj.mp h)
        obtain ⟨t, ht, hnone⟩ := Past.drop (not_mem_readPunct p)
        exact ⟨t, ht, hnone⟩

theorem lexeme_fits (hp : Spliced p) (h : lexeme uc p = some (l, rest)) : ∃ t, p = t ++ rest ∧ l.Fits t rest := by
  rw [lexeme] at h
  split at h
  · obtain ⟨rfl, rfl⟩ := Prod.mk.inj (Option.some_inj.mp h)
    obtain ⟨t, ht⟩ := List.tail_suffix p
    exact ⟨t, ht.symm, trivial⟩
  · split at h
    · next r hhash =>
        obtain rfl := Option.some_inj.mp h
        split at hhash
        · next hsharp =>
            refine hash_fits ?_ hhash
            rintro rfl
            exact absurd hsharp nofun
        · exact absurd hhash nofun
    · split at h
      · obtain ⟨rfl, rfl⟩ := Prod.mk.inj (Option.some_inj.mp h)
        obtain ⟨t, ht⟩ := List.dropWhile_suffix (l := p) (· ≠ '\n')
        exact ⟨t, ht.symm, trivial⟩
      · split at h
        · obtain ⟨r, hr, h⟩ := Option.map_eq_some_iff.mp h
          obtain ⟨rfl, rfl⟩ := Prod.mk.inj h
          obtain ⟨t, ht⟩ := (afterComment_suffix hr).trans (List.drop_suffix 2 p)
          exact ⟨t, ht.symm, trivial⟩
        · split at h
          · obtain ⟨rfl, rfl⟩ := Prod.mk.inj (Option.some_inj.mp h)
            obtain ⟨t, ht, hnone⟩ := past_number p
            exact ⟨t, ht, hnone⟩
          · split at h
            · next h128 =>
                obtain ⟨⟨c, len⟩, hdecode, h⟩ := Option.bind_eq_some_iff.mp h
                obtain ⟨_, h⟩ := Option.ite_none_right_eq_some.mp h
                exact identifier_fits (not_mem_decodeUtf8 hdecode h128) h
            · split at h
              · next hident =>
                  refine identifier_fits ?_ h
                  cases p with
                  | nil => exact List.not_mem_nil
                  | cons c p =>
                      exact fun hmem => head_ne rfl (Bool.and_eq_true_iff.mp hident).1 (List.mem_singleton.mp hmem).symm
              · exact quoted_fits hp h

/-! ## The text and its lexemes -/

abbrev Lexemes := List (Lexeme × Text)

/-- The text that the lexemes are from. -/
def texts (ls : Lexemes) : Text := ls.flatMap Prod.snd

/-- Every lexeme fits its text and what is behind it. -/
def Whole : Lexemes → Text → Prop
  | [], _ => True
  | (l, t) :: ls, rest => l.Fits t (texts ls ++ rest) ∧ Whole ls rest

variable {ls before after : Lexemes} {x : Lexeme × Text}

theorem texts_cons (x : Lexeme × Text) (ls : Lexemes) : texts (x :: ls) = x.2 ++ texts ls := List.flatMap_cons

theorem texts_append (ls ls' : Lexemes) : texts (ls ++ ls') = texts ls ++ texts ls' := List.flatMap_append

theorem whole_append {ls ls' : Lexemes} {rest : Text} (h : Whole (ls ++ ls') rest) :
    Whole ls (texts ls' ++ rest) ∧ Whole ls' rest := by
  induction ls with
  | nil => exact ⟨trivial, h⟩
  | cons x ls ih =>
      obtain ⟨hfit, h⟩ := h
      have hfit : x.1.Fits x.2 (texts (ls ++ ls') ++ rest) := hfit
      rw [texts_append, List.append_assoc] at hfit
      exact ⟨⟨hfit, (ih h).1⟩, (ih h).2⟩

theorem spans_whole (hp : Spliced p) (h : spans uc p = some ls) : texts ls = p ∧ Whole ls [] := by
  induction hn : p.length using Nat.strongRecOn generalizing p ls with
  | ind n ih =>
      rw [spans] at h
      split at h
      · next hnil =>
          rw [← Option.some_inj.mp h, hnil]
          exact ⟨rfl, trivial⟩
      · split at h
        · exact absurd h nofun
        · next l rest hl =>
            obtain ⟨hlt, h⟩ := Option.ite_none_right_eq_some.mp h
            obtain ⟨ls', hrest, rfl⟩ := Option.map_eq_some_iff.mp h
            obtain ⟨t, rfl, hfit⟩ := lexeme_fits hp hl
            obtain ⟨htexts, hwhole⟩ := ih rest.length (hn ▸ hlt) (hp.suffix (List.suffix_append _ _)) hrest rfl
            have hbetween : between (t ++ rest) rest = t := by
              rw [between, List.length_append, Nat.add_sub_cancel, List.take_left]
            rw [hbetween, texts_cons, htexts]
            refine ⟨rfl, ?_, hwhole⟩
            rw [htexts, List.append_nil]
            exact hfit

/-! ## The counter -/

def Lexeme.isMarker : Lexeme → Bool
  | .marker _ _ _ _ => true
  | _ => false

def Unmarked (ls : Lexemes) : Prop := ∀ x ∈ ls, x.1.isMarker = false

/-- How many line ends were counted too much. -/
def ahead : Lexemes → Text → Nat
  | [], _ => 0
  | (.string _ _ _, _) :: ls, rest => ((texts ls ++ rest).takeWhile isspace).count '\n' + ahead ls rest
  | _ :: ls, rest => ahead ls rest

/-- What lexemes that are no markers do to the variables. -/
structure Goes (s s' : Tokenizer) (ls : Lexemes) (rest : Text) : Prop where
  count : s'.count = s.count + ls.length
  pos : s'.pos = s.pos + (texts ls).length
  input : s'.currentInput = s.currentInput
  offset : s'.currentLineOffset = s.currentLineOffset
  num : s'.lineNum = s.lineNum
  line : s'.curLineno = s.curLineno + (texts ls).count '\n' + ahead ls rest

theorem goes_step {t rest : Text} (s : Tokenizer) (hfit : l.Fits t rest) (hl : l.isMarker = false) :
    Goes s (s.step (l, t)) [(l, t)] rest := by
  have hpos : s.pos + t.length = s.pos + (texts [(l, t)]).length := by
    rw [texts_cons, List.length_append]
    rfl
  have hnl : (texts [(l, t)]).count '\n' = t.count '\n' := by
    rw [texts_cons, List.count_append]
    rfl
  have hplain : '\n' ∉ t → (0 : Int) = t.count '\n' := fun h => by
    rw [List.count_eq_zero.mpr h]
    rfl
  cases l with
  | marker n file offset ended => exact absurd hl nofun
  | blank => exact ⟨rfl, hpos, rfl, rfl, rfl, by rw [hnl]; exact (Int.add_zero _).symm⟩
  | comment => exact ⟨rfl, hpos, rfl, rfl, rfl, by rw [hnl]; exact (Int.add_zero _).symm⟩
  | directive => exact ⟨rfl, hpos, rfl, rfl, rfl, by rw [hnl]; exact (Int.add_zero _).symm⟩
  | token kind =>
      refine ⟨rfl, hpos, rfl, rfl, rfl, ?_⟩
      rw [hnl, ← hplain hfit]
      exact (Int.add_zero _).symm
  | char val pre =>
      refine ⟨rfl, hpos, rfl, rfl, rfl, ?_⟩
      rw [hnl, ← hplain hfit.1]
      exact (Int.add_zero _).symm
  | string val pre counted =>
      have hcount : counted = t.count '\n' + (rest.takeWhile isspace).count '\n' := hfit.1
      have hahead : ahead [(.string val pre counted, t)] rest = (rest.takeWhile isspace).count '\n' := Nat.add_zero _
      have hline : s.curLineno + counted + 0 =
          s.curLineno + (texts [(Lexeme.string val pre counted, t)]).count '\n' +
            ahead [(.string val pre counted, t)] rest := by
        rw [hahead, hnl]
        omega
      cases pre with
      | none => exact ⟨rfl, hpos, rfl, rfl, rfl, hline⟩
      | some c => exact ⟨rfl, hpos, rfl, rfl, rfl, hline⟩

theorem ahead_append (ls ls' : Lexemes) (rest : Text) :
    ahead (ls ++ ls') rest = ahead ls (texts ls' ++ rest) + ahead ls' rest := by
  induction ls with
  | nil => exact (Nat.zero_add _).symm
  | cons x ls ih =>
      obtain ⟨l, t⟩ := x
      cases l with
      | string val pre counted =>
          show ((texts (ls ++ ls') ++ rest).takeWhile isspace).count '\n' + ahead (ls ++ ls') rest = _
          rw [ih, texts_append, List.append_assoc, ← Nat.add_assoc]
          rfl
      | blank | comment | directive | marker _ _ _ _ | token _ | char _ _ => exact ih

theorem goes_run (s : Tokenizer) {rest : Text} (hw : Whole ls rest) (hu : Unmarked ls) :
    Goes s (ls.foldl Tokenizer.step s) ls rest := by
  induction ls generalizing s with
  | nil =>
      refine ⟨rfl, rfl, rfl, rfl, rfl, ?_⟩
      show s.curLineno = s.curLineno + ((0 : Nat) : Int) + ((0 : Nat) : Int)
      omega
  | cons x ls ih =>
      obtain ⟨l, t⟩ := x
      have hstep := goes_step s hw.1 (hu (l, t) List.mem_cons_self)
      have hrun := ih (s.step (l, t)) hw.2 fun y hy => hu y (List.mem_cons_of_mem _ hy)
      have htext : texts ((l, t) :: ls) = texts [(l, t)] ++ texts ls := texts_append [(l, t)] ls
      have hahead : ahead ((l, t) :: ls) rest = ahead [(l, t)] (texts ls ++ rest) + ahead ls rest :=
        ahead_append [(l, t)] ls rest
      refine ⟨?_, ?_, hrun.input.trans hstep.input, hrun.offset.trans hstep.offset, hrun.num.trans hstep.num, ?_⟩
      · have h1 := hstep.count
        have h2 := hrun.count
        rw [List.length_singleton] at h1
        rw [List.length_cons, List.foldl_cons]
        omega
      · have h1 := hstep.pos
        have h2 := hrun.pos
        rw [htext, List.length_append, List.foldl_cons]
        omega
      · have h1 := hstep.line
        have h2 := hrun.line
        rw [htext, hahead, List.count_append, List.foldl_cons]
        omega

/-! ## The tokens -/

/-- The token that is made of a lexeme. -/
def made (s : Tokenizer) : Lexeme × Text → Option Token
  | (.token kind, text) => some ⟨kind, s.pos, text.length, s.curLineno, s.filename, text⟩
  | (.char val pre, text) =>
      some ⟨.num val, s.pos + pre, text.length - pre, s.curLineno, s.filename, text.drop pre⟩
  | (.string val none counted, text) =>
      some ⟨.str val none, s.pos, val.length, s.curLineno + counted, s.filename, text⟩
  | (.string val (some c) counted, text) =>
      some ⟨.str val (some c), s.pos + 1 - c.toNat, val.length, s.curLineno + counted, s.filename, text⟩
  | _ => none

theorem tokens_step (s : Tokenizer) (x : Lexeme × Text) :
    (s.step x).tokens = ((made s x).map (s.count, ·)).toList ++ s.tokens := by
  obtain ⟨l, t⟩ := x
  cases l with
  | string val pre counted =>
      cases pre with
      | none => rfl
      | some c => rfl
  | blank | comment | directive | marker _ _ _ _ | token _ | char _ _ => rfl

theorem mem_tokens {s : Tokenizer} {p : Nat × Token} : p ∈ (ls.foldl Tokenizer.step s).tokens ↔ p ∈ s.tokens ∨
    ∃ before x after t, ls = before ++ x :: after ∧ made (before.foldl Tokenizer.step s) x = some t ∧
      p = ((before.foldl Tokenizer.step s).count, t) := by
  induction ls generalizing s with
  | nil =>
      refine ⟨.inl, fun h => h.resolve_right ?_⟩
      rintro ⟨before, x, after, t, hl, _⟩
      exact absurd hl (by simp)
  | cons x ls ih =>
      rw [List.foldl_cons, ih, tokens_step, List.mem_append, Option.mem_toList, Option.map_eq_some_iff]
      constructor
      · rintro ((⟨t, ht, rfl⟩ | hs) | ⟨before, y, after, t, rfl, ht, rfl⟩)
        · exact .inr ⟨[], x, ls, t, rfl, ht, rfl⟩
        · exact .inl hs
        · exact .inr ⟨x :: before, y, after, t, rfl, ht, rfl⟩
      · rintro (hs | ⟨before, y, after, t, hl, ht, rfl⟩)
        · exact .inl (.inr hs)
        · cases before with
          | nil =>
              obtain ⟨rfl, rfl⟩ := List.cons.inj hl
              exact .inl (.inl ⟨t, ht, rfl⟩)
          | cons z before =>
              obtain ⟨rfl, rfl⟩ := List.cons.inj hl
              exact .inr ⟨before, y, after, t, rfl, ht, rfl⟩

/-! ## Counting afterwards -/

theorem countLines_add (input : Text) (p line : Nat) :
    countLines input p line + (input.take (min p line)).count '\n' = (input.take line).count '\n' := by
  rw [countLines, ← List.take_take, Nat.add_comm, ← List.count_append, List.take_append_drop]

/-- No line ends between the beginning of a line and a place in it. -/
theorem countLines_lineStart (input : Text) (currentInput p loc : Nat) :
    countLines input p (lineStart input currentInput loc) = countLines input p loc := by
  induction loc with
  | zero => rfl
  | succ loc ih =>
      rw [lineStart]
      split
      · next h =>
          rw [ih]
          have hone : (input.take (loc + 1)).count '\n' = (input.take loc).count '\n' := by
            rw [List.take_add_one, List.count_append, Nat.add_eq_left]
            cases hc : input[loc]? with
            | none => rfl
            | some c =>
                refine List.count_eq_zero.mpr fun hmem => h.2 ?_
                rw [hc, List.mem_singleton.mp hmem]
          have h1 := countLines_add input p loc
          have h2 := countLines_add input p (loc + 1)
          by_cases hle : p ≤ loc
          · rw [Nat.min_eq_left hle] at h1
            rw [Nat.min_eq_left (Nat.le_succ_of_le hle)] at h2
            omega
          · rw [Nat.min_eq_right (by omega)] at h1 h2
            omega
      · rfl

theorem computeLineNo_eq (input : Text) (s : Tokenizer) (loc : Int) : computeLineNo input s loc =
    if s.currentLineOffset = 0 ∨ loc < s.currentInput + s.currentLineOffset then
      1 + (countLines input s.currentInput loc.toNat : Int)
    else s.lineNum + countLines input (s.currentInput + s.currentLineOffset) loc.toNat := by
  rw [computeLineNo, countLines_lineStart, countLines_lineStart]

/-! ## Agreement -/

/-- The line behind a lexeme, as the markers have it. -/
def lineAfter (line : Int) : Lexeme × Text → Int
  | (.marker n _ _ _, _) => n - 1
  | (_, text) => line + text.count '\n'

/-- The line that the last marker assigns to what comes behind the lexemes. -/
def assigned (ls : Lexemes) : Int := ls.foldl lineAfter 1

/-- Both computations give every token the line that is assigned to it. -/
def LinesAgree (input : Text) (ls : Lexemes) (s : Tokenizer) : Prop :=
  ∀ p ∈ s.tokens, p.2.lineno = computeLineNo input s p.2.loc ∧ p.2.lineno = assigned (ls.take p.1)

instance (input : Text) (ls : Lexemes) (s : Tokenizer) : Decidable (LinesAgree input ls s) :=
  inferInstanceAs (Decidable (∀ p ∈ s.tokens, _))

/-- There is no line marker. No line ends in a string literal or in the blanks behind
it, and none in the characters before one that has a prefix, as many as the code of
the prefix less one. -/
structure Steady (ls : Lexemes) : Prop where
  unmarked : Unmarked ls
  string : ∀ before val pre counted text after, ls = before ++ (.string val pre counted, text) :: after →
    '\n' ∉ text ++ (texts after).takeWhile isspace
  pre : ∀ before val c counted text after, ls = before ++ (.string val (some c) counted, text) :: after →
    '\n' ∉ (texts before).drop ((texts before).length + 1 - c.toNat)

theorem assigned_unmarked (hu : Unmarked ls) : assigned ls = 1 + (texts ls).count '\n' := by
  suffices h : ∀ line, ls.foldl lineAfter line = line + (texts ls).count '\n' from h 1
  intro line
  induction ls generalizing line with
  | nil => exact (Int.add_zero _).symm
  | cons x ls ih =>
      obtain ⟨l, t⟩ := x
      have hl : lineAfter line (l, t) = line + t.count '\n' := by
        cases l with
        | marker n file offset ended => exact absurd (hu _ List.mem_cons_self) nofun
        | blank | comment | directive | token _ | char _ _ | string _ _ _ => rfl
      rw [List.foldl_cons, ih (fun y hy => hu y (List.mem_cons_of_mem _ hy)), hl, texts_cons, List.count_append]
      show line + (t.count '\n' : Int) + (texts ls).count '\n' = line + ((t.count '\n' + (texts ls).count '\n' : Nat) : Int)
      omega

/-- Where strings are followed by a token on the line, nothing is counted twice. -/
theorem ahead_eq_zero {rest : Text} (h : ∀ before val pre counted text after,
    ls = before ++ (.string val pre counted, text) :: after → '\n' ∉ (texts after ++ rest).takeWhile isspace) :
    ahead ls rest = 0 := by
  induction ls with
  | nil => rfl
  | cons x ls ih =>
      have htail := ih fun before val pre counted text after hl => h (x :: before) val pre counted text after (by rw [hl]; rfl)
      obtain ⟨l, t⟩ := x
      cases l with
      | string val pre counted =>
          show ((texts ls ++ rest).takeWhile isspace).count '\n' + ahead ls rest = 0
          rw [htail, List.count_eq_zero.mpr (h [] val pre counted t ls rfl)]
      | blank | comment | directive | marker _ _ _ _ | token _ | char _ _ => exact htail

theorem pos_run (s : Tokenizer) (ls : Lexemes) : (ls.foldl Tokenizer.step s).pos = s.pos + (texts ls).length := by
  induction ls generalizing s with
  | nil => rfl
  | cons x ls ih =>
      obtain ⟨l, t⟩ := x
      have hstep : (s.step (l, t)).pos = s.pos + t.length := by
        cases l with
        | string val pre counted =>
            cases pre with
            | none => rfl
            | some c => rfl
        | blank | comment | directive | marker _ _ _ _ | token _ | char _ _ => rfl
      rw [List.foldl_cons, ih, hstep, texts_cons, List.length_append, Nat.add_assoc]

theorem tokenize_eq {filename input : Text} {s : Tokenizer} (hspans : spans uc input = some ls)
    (htok : tokenize uc filename input = some s) :
    s = (ls.foldl Tokenizer.step (.start filename)).newToken .eof (ls.foldl Tokenizer.step (.start filename)).pos 0 [] :=
  (Option.some_inj.mp ((tokenize_of_spans hspans).symm.trans htok)).symm

section Agree

variable {filename input : Text} {s : Tokenizer} (hinput : Spliced input) (hspans : spans uc input = some ls)
include hinput hspans

/-- What is known where a token is made behind lexemes that are no markers. -/
theorem goes_before (hl : ls = before ++ after) (hu : Unmarked before) :
    Goes (.start filename) (before.foldl Tokenizer.step (.start filename)) before (texts after) := by
  obtain ⟨_, hwhole⟩ := spans_whole hinput hspans
  rw [hl] at hwhole
  have hbefore := (whole_append hwhole).1
  rw [List.append_nil] at hbefore
  exact goes_run _ hbefore hu

/-- The token at the end is later than its line, if there is a marker. -/
theorem unmarked_of_agree (htok : tokenize uc filename input = some s) (hagree : LinesAgree input ls s) :
    Unmarked ls := by
  obtain ⟨htexts, hwhole⟩ := spans_whole hinput hspans
  rcases Patches.none_or_last (fun x : Lexeme × Text => x.1.isMarker = true) ls with
    hnone | ⟨before, ⟨l, t⟩, after, rfl, hmarker, hafter⟩
  · exact fun x hx => eq_false_of_ne_true (hnone x hx)
  · exfalso
    cases l with
    | blank | comment | directive | token _ | char _ _ | string _ _ _ => exact absurd hmarker nofun
    | marker n file offset ended =>
        have hs := tokenize_eq hspans htok
        rw [List.foldl_append, List.foldl_cons] at hs
        have hpos := pos_run (.start filename) before
        generalize before.foldl Tokenizer.step (.start filename) = s0 at hs hpos
        have hwhole := (whole_append hwhole).2
        obtain ⟨hoffset, hle, hnl, _⟩ := hwhole.1
        have hrun := goes_run (s0.step (.marker n file offset ended, t)) hwhole.2 fun x hx =>
          eq_false_of_ne_true (hafter x hx)
        generalize after.foldl Tokenizer.step (s0.step (.marker n file offset ended, t)) = s1 at hs hrun
        have heof := (hagree (s1.count, ⟨.eof, s1.pos, 0, s1.curLineno, s1.filename, []⟩) (hs ▸ List.mem_cons_self)).1
        have hend : s1.pos = (texts before).length + t.length + (texts after).length := by
          rw [hrun.pos]
          show s0.pos + t.length + (texts after).length = _
          rw [hpos]
          exact congrArg (· + t.length + (texts after).length) (Nat.zero_add _)
        -- the lines behind the marker are those of the text behind it
        have hcount : countLines input (s0.pos + offset) s1.pos = (texts after).count '\n' := by
          have hstart : s0.pos = (texts before).length := hpos.trans (Nat.zero_add _)
          rw [← htexts, texts_append, texts_cons, hend, hstart, countLines, List.take_of_length_le,
            List.drop_length_add_append, List.drop_append_of_le_length hle, List.count_append, List.count_eq_zero.mpr hnl, Nat.zero_add]
          rw [List.length_append, List.length_append, Nat.add_assoc]
        have hnum : s.lineNum = n - 1 ∧ s.currentInput = s0.pos ∧ s.currentLineOffset = offset := by
          rw [hs]
          exact ⟨hrun.num, hrun.input, hrun.offset⟩
        have hline := hrun.line
        have hbegin : (n : Int) ≤ (s0.step (.marker n file offset ended, t)).curLineno := by
          show (n : Int) ≤ if ended then (n : Int) else n + 1
          split
          · exact Int.le_refl _
          · omega
        have hloc : ¬ (s.currentLineOffset = 0 ∨ (s1.pos : Int) < s.currentInput + s.currentLineOffset) := by
          rw [hnum.2.1, hnum.2.2, hend, show s0.pos = (texts before).length from hpos.trans (Nat.zero_add _)]
          omega
        have heof : s1.curLineno = computeLineNo input s s1.pos := heof
        rw [computeLineNo_eq, if_neg hloc, hnum.1, hnum.2.1, hnum.2.2, Int.toNat_natCast, hcount] at heof
        omega

/-- In a text without markers a line is counted from the beginning. -/
theorem computeLineNo_unmarked (htok : tokenize uc filename input = some s) (hu : Unmarked ls) (loc : Int) :
    computeLineNo input s loc = 1 + (input.take loc.toNat).count '\n' := by
  have hs := tokenize_eq hspans htok
  have hrun : Goes (.start filename) _ ls (texts []) := goes_before hinput hspans (List.append_nil ls).symm hu
  have hin : s.currentInput = 0 := by
    rw [hs]
    exact hrun.input
  have hoff : s.currentLineOffset = 0 := by
    rw [hs]
    exact hrun.offset
  rw [computeLineNo_eq, if_pos (.inl hoff), hin, countLines, List.drop_zero]

/-- The line of a place that is on the line where the lexemes before it end. -/
theorem computeLineNo_before (htok : tokenize uc filename input = some s) (hu : Unmarked ls)
    (hl : ls = before ++ after) {t : Text} (ht : t <+: texts after) (hnone : '\n' ∉ t) :
    computeLineNo input s ((texts before).length + t.length : Nat) = assigned before := by
  obtain ⟨htexts, _⟩ := spans_whole hinput hspans
  obtain ⟨rest, hrest⟩ := ht
  have htake : input.take ((texts before).length + t.length) = texts before ++ t := by
    rw [← htexts, hl, texts_append, ← hrest, List.take_length_add_append, List.take_left]
  rw [computeLineNo_unmarked hinput hspans htok hu, Int.toNat_natCast, htake, List.count_append,
    List.count_eq_zero.mpr hnone, assigned_unmarked fun x hx => hu x (hl ▸ List.mem_append_left _ hx)]
  rfl

/-- The line of the place where a literal with a prefix is taken to be. -/
theorem computeLineNo_pre (htok : tokenize uc filename input = some s) (hu : Unmarked ls) (hl : ls = before ++ after)
    {c : Char} (hc : 0 < c.toNat) :
    computeLineNo input s (((texts before).length : Int) + 1 - c.toNat) = assigned before ↔
      '\n' ∉ (texts before).drop ((texts before).length + 1 - c.toNat) := by
  obtain ⟨htexts, _⟩ := spans_whole hinput hspans
  have hplace : (((texts before).length : Int) + 1 - c.toNat).toNat = (texts before).length + 1 - c.toNat := by omega
  have htake : input.take ((texts before).length + 1 - c.toNat) =
      (texts before).take ((texts before).length + 1 - c.toNat) := by
    rw [← htexts, hl, texts_append, List.take_append_of_le_length (by omega)]
  have hsum := congrArg (List.count '\n')
    (List.take_append_drop ((texts before).length + 1 - c.toNat) (texts before))
  rw [List.count_append] at hsum
  rw [computeLineNo_unmarked hinput hspans htok hu, hplace, htake, ← List.count_eq_zero,
    assigned_unmarked fun x hx => hu x (hl ▸ List.mem_append_left _ hx)]
  omega

theorem agree_of_steady (htok : tokenize uc filename input = some s) (hsteady : Steady ls) : LinesAgree input ls s := by
  have hu := hsteady.unmarked
  -- where a token is made, the counter has the line that is assigned
  have hline : ∀ before after, ls = before ++ after →
      (before.foldl Tokenizer.step (.start filename)).curLineno = assigned before ∧
        (before.foldl Tokenizer.step (.start filename)).pos = (texts before).length ∧
          ls.take (before.foldl Tokenizer.step (.start filename)).count = before := by
    intro before after hl
    have hbefore : Unmarked before := fun x hx => hu x (hl ▸ List.mem_append_left _ hx)
    have hgoes : Goes (.start filename) _ before (texts after) := goes_before hinput hspans hl hbefore
    have hahead : ahead before (texts after) = 0 := by
      refine ahead_eq_zero fun before' val pre counted text after' hb => ?_
      have hstring := hsteady.string before' val pre counted text (after' ++ after)
        (by rw [hl, hb, List.append_assoc, List.cons_append])
      rw [texts_append] at hstring
      exact fun hmem => hstring (List.mem_append_right _ hmem)
    have hcount : (before.foldl Tokenizer.step (.start filename)).count = before.length :=
      hgoes.count.trans (Nat.zero_add _)
    have hcur := hgoes.line
    rw [hahead] at hcur
    refine ⟨?_, hgoes.pos.trans (Nat.zero_add _), by rw [hcount, hl, List.take_left]⟩
    rw [hcur, assigned_unmarked hbefore]
    exact Int.add_zero _
  intro p hp
  rw [tokenize_eq hspans htok] at hp
  rcases List.mem_cons.mp hp with rfl | hp
  · obtain ⟨hcur, hpos, htake⟩ := hline ls [] (List.append_nil ls).symm
    have heof := computeLineNo_before hinput hspans htok hu (List.append_nil ls).symm List.nil_prefix List.not_mem_nil
    refine ⟨?_, hcur.trans (congrArg assigned htake.symm)⟩
    show (ls.foldl Tokenizer.step (.start filename)).curLineno = computeLineNo input s
      ((ls.foldl Tokenizer.step (.start filename)).pos : Nat)
    rw [hpos, hcur]
    exact heof.symm
  · rcases mem_tokens.mp hp with hp | ⟨before, ⟨l, text⟩, after, t, hl, hmade, rfl⟩
    · exact absurd hp List.not_mem_nil
    · obtain ⟨_, hwhole⟩ := spans_whole hinput hspans
      rw [hl] at hwhole
      have hfit := (whole_append hwhole).2.1
      obtain ⟨hcur, hpos, htake⟩ := hline before _ hl
      have htext : text <+: texts ((l, text) :: after) := ⟨texts after, (texts_cons (l, text) after).symm⟩
      have hbegin := computeLineNo_before hinput hspans htok hu hl List.nil_prefix List.not_mem_nil
      have hassigned : assigned (ls.take (before.foldl Tokenizer.step (.start filename)).count) = assigned before :=
        congrArg assigned htake
      show t.lineno = computeLineNo input s t.loc ∧ t.lineno = _
      rw [hassigned]
      cases l with
      | blank | comment | directive | marker _ _ _ _ => exact absurd hmade nofun
      | token kind =>
          obtain rfl := Option.some_inj.mp hmade
          show (before.foldl Tokenizer.step (.start filename)).curLineno = computeLineNo input s
            ((before.foldl Tokenizer.step (.start filename)).pos : Nat) ∧ _
          rw [hpos]
          exact ⟨hcur.trans hbegin.symm, hcur⟩
      | char val pre =>
          obtain rfl := Option.some_inj.mp hmade
          obtain ⟨hnone, hpre⟩ := hfit
          have hplace := computeLineNo_before hinput hspans htok hu hl ((List.take_prefix pre text).trans htext)
            fun hmem => hnone (List.mem_of_mem_take hmem)
          rw [List.length_take, Nat.min_eq_left hpre] at hplace
          show (before.foldl Tokenizer.step (.start filename)).curLineno = computeLineNo input s
            ((before.foldl Tokenizer.step (.start filename)).pos + pre : Nat) ∧ _
          rw [hpos]
          exact ⟨hcur.trans hplace.symm, hcur⟩
      | string val pre counted =>
          obtain ⟨hcounted, hpre⟩ := hfit
          have hstring := hsteady.string before val pre counted text after hl
          rw [List.append_nil] at hcounted
          rw [← List.count_append, List.count_eq_zero.mpr hstring] at hcounted
          have hlineno : (before.foldl Tokenizer.step (.start filename)).curLineno + counted = assigned before := by
            rw [hcur, hcounted]
            exact Int.add_zero _
          cases pre with
          | none =>
              obtain rfl := Option.some_inj.mp hmade
              show (before.foldl Tokenizer.step (.start filename)).curLineno + counted = computeLineNo input s
                ((before.foldl Tokenizer.step (.start filename)).pos : Nat) ∧ _
              rw [hpos]
              exact ⟨hlineno.trans hbegin.symm, hlineno⟩
          | some c =>
              obtain rfl := Option.some_inj.mp hmade
              show (before.foldl Tokenizer.step (.start filename)).curLineno + counted = computeLineNo input s
                (((before.foldl Tokenizer.step (.start filename)).pos : Int) + 1 - c.toNat) ∧ _
              refine ⟨?_, hlineno⟩
              rw [hlineno, hpos]
              exact ((computeLineNo_pre hinput hspans htok hu hl (hpre c rfl)).mpr
                (hsteady.pre before val c counted text after hl)).symm

theorem steady_of_agree (htok : tokenize uc filename input = some s) (hagree : LinesAgree input ls s) : Steady ls := by
  have hu := unmarked_of_agree hinput hspans htok hagree
  have hmem := tokenize_eq hspans htok
  -- the token of a string is on the line where the string begins
  have hstring : ∀ before val pre counted text after, ls = before ++ (.string val pre counted, text) :: after →
      ∀ t, made (before.foldl Tokenizer.step (.start filename)) (.string val pre counted, text) = some t →
        t.lineno = computeLineNo input s t.loc ∧ t.lineno = assigned before := by
    intro before val pre counted text after hl t ht
    have hgoes : Goes (.start filename) _ before _ :=
      goes_before hinput hspans hl fun x hx => hu x (hl ▸ List.mem_append_left _ hx)
    have htoken := hagree ((before.foldl Tokenizer.step (.start filename)).count, t) (by
      rw [hmem]
      exact List.mem_cons_of_mem _ (mem_tokens.mpr (.inr ⟨before, _, after, t, hl, ht, rfl⟩)))
    have htake : ls.take (before.foldl Tokenizer.step (.start filename)).count = before := by
      rw [hgoes.count.trans (Nat.zero_add _), hl, List.take_left]
    rw [htake] at htoken
    exact htoken
  have hcounted : ∀ before val pre counted text after, ls = before ++ (.string val pre counted, text) :: after →
      counted = 0 := by
    intro before val pre counted text after hl
    have hbefore : Unmarked before := fun x hx => hu x (hl ▸ List.mem_append_left _ hx)
    have hgoes : Goes (.start filename) _ before _ := goes_before hinput hspans hl hbefore
    have hcur := hgoes.line
    have hlineno : (before.foldl Tokenizer.step (.start filename)).curLineno + counted = assigned before := by
      cases pre with
      | none => exact (hstring before val _ counted text after hl _ rfl).2
      | some c => exact (hstring before val _ counted text after hl _ rfl).2
    rw [assigned_unmarked hbefore, hcur] at hlineno
    have hone : (Tokenizer.start filename).curLineno = 1 := rfl
    omega
  have hfit : ∀ before val pre counted text after, ls = before ++ (.string val pre counted, text) :: after →
      (Lexeme.string val pre counted).Fits text (texts after ++ []) := by
    intro before val pre counted text after hl
    obtain ⟨_, hwhole⟩ := spans_whole hinput hspans
    rw [hl] at hwhole
    exact (whole_append hwhole).2.1
  refine ⟨hu, ?_, ?_⟩
  · intro before val pre counted text after hl
    have hcount := (hfit before val pre counted text after hl).1
    rw [hcounted before val pre counted text after hl, List.append_nil, ← List.count_append] at hcount
    exact List.count_eq_zero.mp hcount.symm
  · intro before val c counted text after hl
    have hpos : (before.foldl Tokenizer.step (.start filename)).pos = (texts before).length :=
      (pos_run _ before).trans (Nat.zero_add _)
    obtain ⟨hcompute, hline⟩ := hstring before val (some c) counted text after hl _ rfl
    rw [hline] at hcompute
    have hcompute : assigned before = computeLineNo input s
        (((before.foldl Tokenizer.step (.start filename)).pos : Int) + 1 - c.toNat) := hcompute
    rw [hpos] at hcompute
    exact (computeLineNo_pre hinput hspans htok hu hl ((hfit before val _ counted text after hl).2 c rfl)).mp hcompute.symm

end Agree

end Rcc.Lexer
