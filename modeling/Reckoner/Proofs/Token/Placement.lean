import Reckoner.Proofs.Token.Cutting

set_option autoImplicit false

namespace Reckoner.Token

open Text

def stop (t : Token) : Nat := t.position + t.chars.length

/-- The token is what the text says at its position, and could not be longer there. -/
structure StandsIn (cs : List Char) (t : Token) : Prop where
  text : t.chars <+: cs.drop t.position
  kind : t.kind.HasText t.chars
  longest : ∀ c, cs[t.stop]? = some c → t.kind.takes t.chars c = false

/-- From the position `m` up to `n`, the text is the tokens in order with blanks around them. -/
structure Covers (cs : List Char) (m n : Nat) (ts : List Token) : Prop where
  stands : ∀ t ∈ ts, t.StandsIn cs
  inside : ∀ t ∈ ts, m ≤ t.position ∧ t.stop ≤ n
  ordered : ts.Pairwise fun t u => t.stop ≤ u.position
  blank : ∀ i c, m ≤ i → i < n → cs[i]? = some c → (∀ t ∈ ts, i < t.position ∨ t.stop ≤ i) →
    isBlank c = true

/-- The text is cut into the tokens up to the position `n`, and nothing begins at the character
there. -/
structure Stuck (cs : List Char) (n : Nat) (c : Char) (ts : List Token) : Prop where
  covers : Covers cs 0 n ts
  here : cs[n]? = some c
  unexpected : ¬Begins c (cs.drop (n + 1))

variable {c : Char} {cs front rest : List Char} {m n : Nat} {t : Token} {ts us : List Token}

theorem Covers.done (cs : List Char) (n : Nat) : Covers cs n n [] :=
  ⟨nofun, nofun, .nil, fun _ _ hm hn => absurd hn (Nat.not_lt.mpr hm)⟩

theorem Covers.blank_cons (h : Covers cs (m + 1) n ts)
    (hblank : ∀ c, cs[m]? = some c → isBlank c = true) : Covers cs m n ts := by
  refine ⟨h.stands, fun t ht => ?_, h.ordered, fun i c hm hn hc hfree => ?_⟩
  · obtain ⟨hlow, hhigh⟩ := h.inside t ht
    exact ⟨by omega, hhigh⟩
  · rcases Nat.eq_or_lt_of_le hm with rfl | hm
    · exact hblank c hc
    · exact h.blank i c hm hn hc hfree

theorem Covers.token_cons (h : Covers cs t.stop n ts) (ht : t.StandsIn cs) (hn : t.stop ≤ n) :
    Covers cs t.position n (t :: ts) := by
  have hlow : ∀ u ∈ ts, t.stop ≤ u.position := fun u hu => (h.inside u hu).1
  have hstop : t.position ≤ t.stop := Nat.le_add_right ..
  refine ⟨List.forall_mem_cons.mpr ⟨ht, h.stands⟩, ?_, List.pairwise_cons.mpr ⟨hlow, h.ordered⟩, ?_⟩
  · refine List.forall_mem_cons.mpr ⟨⟨le_rfl, hn⟩, fun u hu => ⟨?_, (h.inside u hu).2⟩⟩
    exact hstop.trans (hlow u hu)
  · intro i c hm hi hc hfree
    obtain ⟨hhead, htail⟩ := List.forall_mem_cons.mp hfree
    exact h.blank i c (by omega) hi hc htail

theorem getElem?_of_drop {text : List Char} (h : text.drop m = cs) (k : Nat) :
    text[m + k]? = cs[k]? := by
  rw [← h, List.getElem?_drop]

theorem drop_of_drop {text : List Char} (before : List Char) (h : text.drop m = before ++ cs) :
    text.drop (m + before.length) = cs := by
  rw [← List.drop_drop, h, List.drop_left]

theorem covers_of_cuts {text : List Char} (h : Cuts m front ts rest)
    (htext : text.drop m = front ++ rest) : Covers text m (m + front.length) ts := by
  induction h with
  | done => exact .done ..
  | @blank m c cs rest ts hc _ ih =>
    have hrest := ih (drop_of_drop [c] htext)
    rw [List.length_cons, Nat.add_comm cs.length, ← Nat.add_assoc]
    refine hrest.blank_cons fun d hd => ?_
    have hhead : text[m]? = some c := getElem?_of_drop htext 0
    obtain rfl : c = d := Option.some.inj (hhead.symm.trans hd)
    exact hc
  | @token t cs rest ts htext' htakes _ ih =>
    rw [List.append_assoc] at htext
    have hrest := ih (drop_of_drop _ htext)
    rw [List.length_append, ← Nat.add_assoc]
    refine hrest.token_cons ⟨?_, htext', fun c hc => htakes c ?_⟩ (Nat.le_add_right ..)
    · rw [htext]
      exact List.prefix_append ..
    · rw [Option.mem_def, List.head?_eq_getElem?, ← getElem?_of_drop (drop_of_drop _ htext)]
      exact hc

theorem Kind.HasText.ne_nil {kind : Kind} (h : kind.HasText cs) : cs ≠ [] := by
  obtain ⟨c, more, rfl, -⟩ := (hasText_iff_spelled.mp h).exists_head
  exact List.cons_ne_nil c more

theorem StandsIn.lt_stop (h : t.StandsIn cs) : t.position < t.stop :=
  Nat.lt_add_of_pos_right (List.length_pos_iff.mpr h.kind.ne_nil)

theorem Covers.tail (h : Covers cs m n (t :: ts)) : Covers cs t.stop n ts := by
  obtain ⟨ht, hts⟩ := List.forall_mem_cons.mp h.stands
  obtain ⟨hlow, hordered⟩ := List.pairwise_cons.mp h.ordered
  have hinside := List.forall_mem_cons.mp h.inside
  refine ⟨hts, fun u hu => ⟨hlow u hu, (hinside.2 u hu).2⟩, hordered, fun i c hm hn hc hfree => ?_⟩
  have hstop := ht.lt_stop
  refine h.blank i c ?_ hn hc (List.forall_mem_cons.mpr ⟨.inr hm, hfree⟩)
  omega

theorem Covers.skip (h : Covers cs m n ts) (hc : cs[m]? = some c) (hn : m < n)
    (hlater : ∀ t ∈ ts, m < t.position) : isBlank c = true ∧ Covers cs (m + 1) n ts := by
  refine ⟨h.blank m c le_rfl hn hc fun t ht => .inl (hlater t ht), h.stands, fun t ht => ?_,
    h.ordered, fun i d hm => h.blank i d (by omega)⟩
  exact ⟨hlater t ht, (h.inside t ht).2⟩

theorem Covers.eq_nil (h : Covers cs m m ts) : ts = [] := by
  cases ts with
  | nil => rfl
  | cons t ts =>
    have hstop := (h.stands t List.mem_cons_self).lt_stop
    have hinside := h.inside t List.mem_cons_self
    omega

theorem Covers.later (h : Covers cs m n (t :: ts)) (ht : m ≠ t.position) :
    ∀ u ∈ t :: ts, m < u.position := by
  have hlow := (h.inside t List.mem_cons_self).1
  have hstop := (h.stands t List.mem_cons_self).lt_stop
  refine List.forall_mem_cons.mpr ⟨by omega, fun u hu => ?_⟩
  have hordered := (List.pairwise_cons.mp h.ordered).1 u hu
  omega

theorem Covers.exists_front {text : List Char} (h : Covers text t.position n (t :: ts))
    (hn : n = t.position + front.length) (htext : text.drop t.position = front ++ rest) :
    ∃ more, front = t.chars ++ more := by
  have hprefix := (h.stands t List.mem_cons_self).text
  have hinside := (h.inside t List.mem_cons_self).2
  rw [htext] at hprefix
  rw [hn, stop, Nat.add_le_add_iff_left] at hinside
  obtain ⟨more, hmore⟩ := List.prefix_of_prefix_length_le hprefix (List.prefix_append ..) hinside
  exact ⟨more, hmore.symm⟩

theorem cuts_of_covers {text : List Char} (h : Covers text m (m + front.length) ts)
    (htext : text.drop m = front ++ rest) : Cuts m front ts rest := by
  induction hlength : front.length using Nat.strong_induction_on generalizing m front ts with
  | _ k ih =>
    subst hlength
    cases front with
    | nil =>
      rw [h.eq_nil]
      exact .done m rest
    | cons c cs =>
      by_cases hfirst : ∃ t more, ts = t :: more ∧ m = t.position
      · obtain ⟨t, us, rfl, rfl⟩ := hfirst
        have ht := h.stands t List.mem_cons_self
        obtain ⟨more, hmore⟩ := h.exists_front rfl htext
        have hpositive := List.length_pos_iff.mpr ht.kind.ne_nil
        rw [hmore, List.append_assoc] at htext
        have hrest := h.tail
        rw [hmore, List.length_append, ← Nat.add_assoc] at hrest
        rw [hmore]
        refine .token ht.kind (fun d hd => ht.longest d ?_)
          (ih more.length ?_ hrest (drop_of_drop _ htext) rfl)
        · rwa [Option.mem_def, List.head?_eq_getElem?,
            ← getElem?_of_drop (drop_of_drop _ htext)] at hd
        · rw [hmore, List.length_append]
          omega
      · have hlater : ∀ t ∈ ts, m < t.position := by
          cases ts with
          | nil => exact List.forall_mem_nil _
          | cons t us => exact h.later fun hm => hfirst ⟨t, us, rfl, hm⟩
        rw [List.length_cons, Nat.add_comm cs.length, ← Nat.add_assoc] at h
        obtain ⟨hc, hrest⟩ := h.skip (getElem?_of_drop htext 0) (by omega) hlater
        exact .blank hc (ih cs.length (by simp) hrest (drop_of_drop [c] htext) rfl)

theorem scan_cases (cs : List Char) :
    (∃ ts, scan 0 cs = .ok ts ∧ Covers cs 0 cs.length ts) ∨
      ∃ n c ts, Stuck cs n c ts ∧
        scan 0 cs = .error (.malformed (.unexpectedCharacter c n)) := by
  obtain ⟨front, ts, rest, rfl, hcuts, hblocked⟩ := exists_cuts 0 cs
  have hcovers : Covers (front ++ rest) 0 (0 + front.length) ts := covers_of_cuts hcuts rfl
  rw [Nat.zero_add] at hcovers
  cases rest with
  | nil =>
    rw [List.append_nil] at hcovers ⊢
    exact .inl ⟨ts, hcuts.scan_all, hcovers⟩
  | cons c rest =>
    refine .inr ⟨front.length, c, ts, ⟨hcovers, by simp, by simpa [Blocked] using hblocked⟩, ?_⟩
    rw [hcuts.scan_stuck hblocked, Nat.zero_add]

theorem scan_of_covers (h : Covers cs 0 cs.length ts) : scan 0 cs = .ok ts := by
  have hall : cs.drop 0 = cs ++ [] := by rw [List.drop_zero, List.append_nil]
  exact (cuts_of_covers ((Nat.zero_add cs.length).symm ▸ h) hall).scan_all

namespace Stuck

theorem eq_append (h : Stuck cs n c ts) :
    cs = cs.take n ++ c :: cs.drop (n + 1) ∧ (cs.take n).length = n := by
  obtain ⟨hlt, hc⟩ := List.getElem?_eq_some_iff.mp h.here
  constructor
  · rw [← hc, List.cons_getElem_drop_succ, List.take_append_drop]
  · exact List.length_take_of_le hlt.le

theorem cuts (h : Stuck cs n c ts) : Cuts 0 (cs.take n) ts (c :: cs.drop (n + 1)) := by
  obtain ⟨hcs, hlength⟩ := h.eq_append
  have hcovers : Covers cs 0 (0 + (cs.take n).length) ts := by
    rw [Nat.zero_add, hlength]
    exact h.covers
  exact cuts_of_covers hcovers hcs

theorem scan (h : Stuck cs n c ts) :
    scan 0 cs = .error (.malformed (.unexpectedCharacter c n)) := by
  obtain ⟨hcs, hlength⟩ := h.eq_append
  have hscan := h.cuts.scan_stuck h.unexpected
  rwa [← hcs, hlength, Nat.zero_add] at hscan

end Stuck

/-- The lexer answers with the tokens that cover the text. Where none do, it names the one place
where it is stuck, and the text in front of that place has the tokens read so far. -/
theorem ofText_covers (s : String) :
    (∀ ts, ofText s = .ok ts ↔ Covers s.toList 0 s.length ts) ∧
      (∀ e, ofText s = .error e ↔ ∃ n c ts, Stuck s.toList n c ts ∧
        e = .malformed (.unexpectedCharacter c n)) ∧
      ∀ n c ts, Stuck s.toList n c ts → ofText (String.ofList (s.toList.take n)) = .ok ts ∧
        ∀ m d us, Stuck s.toList m d us → m = n := by
  rw [← String.length_toList]
  refine ⟨fun ts => ⟨fun h => ?_, scan_of_covers⟩, fun e => ⟨fun h => ?_, ?_⟩,
    fun n c ts h => ⟨?_, ?_⟩⟩
  · rcases scan_cases s.toList with ⟨us, hus, hcovers⟩ | ⟨n, c, us, -, herror⟩
    · obtain rfl := Except.ok.inj (hus.symm.trans h)
      exact hcovers
    · cases herror.symm.trans h
  · rcases scan_cases s.toList with ⟨us, hus, -⟩ | ⟨n, c, us, hstuck, herror⟩
    · cases hus.symm.trans h
    · exact ⟨n, c, us, hstuck, (Except.error.inj (herror.symm.trans h)).symm⟩
  · rintro ⟨n, c, us, hstuck, rfl⟩
    exact hstuck.scan
  · rw [ofText, String.toList_ofList]
    exact h.cuts.alone.scan_all
  · intro m d us h'
    have hsame := Except.error.inj (h'.scan.symm.trans h.scan)
    cases hsame
    rfl

def pointedTokens : List Token :=
  [⟨.number (12 * 10 ^ 63), 1, "1.2"⟩, ⟨.number (3 * 10 ^ 63), 4, ".3"⟩, ⟨.word "max", 7, "max"⟩]

theorem ofText_covers_points : Covers " 1.2.3 max".toList 0 10 pointedTokens ∧
    ∃ ts, Stuck "5.e .x".toList 4 '.' ts ∧
      ofText (String.ofList ("5.e .x".toList.take 4)) = .ok ts := by
  have hread : ofText " 1.2.3 max" = .ok pointedTokens := by decide +kernel
  have hstuck : ofText "5.e .x" = .error (.malformed (.unexpectedCharacter '.' 4)) := by
    decide +kernel
  obtain ⟨-, herror, halone⟩ := ofText_covers "5.e .x"
  obtain ⟨n, c, ts, h, hcause⟩ := (herror _).mp hstuck
  cases hcause
  exact ⟨((ofText_covers " 1.2.3 max").1 _).mp hread, ts, h, (halone 4 '.' ts h).1⟩

end Reckoner.Token
