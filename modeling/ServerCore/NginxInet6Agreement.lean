import ServerCore.NginxInet6Addresses

/-!
# Where `ngx_inet6_addr` agrees with the grammar

A text that is accepted is the text of a form, maybe with a colon in front or behind. The
forms of the grammar are told from those by the ends of the text.
-/

namespace ServerCore.NginxInet6Agreement

open NginxHttpParse (Bytes)
open NginxInet NginxInet6Grammar NginxInet6Fields NginxInet6Reading NginxInet6Addresses List Option

variable {text value : Bytes} {form : Form} {mid front octets : List Bytes} {last : Last}
  {gap : Option (List Bytes)}
variable {before : Bytes}

theorem counted_facts (ends : last = .empty → mid = []) (counted : (formOf gap mid last).Counted) :
    (last = .empty → gap ≠ none) ∧ (gap = none → mid ≠ []) ∧
      (gap.getD []).length + mid.length + last.size ≤ 8 := by
  have most := last.size_le
  unfold Form.Counted at counted
  rw [form_front] at counted
  by_cases isEmpty : last = .empty
  · obtain rfl := ends isEmpty
    subst isEmpty
    cases gap with
    | none => cases counted
    | some front => exact ⟨fun _ => some_ne_none front, nofun, Nat.succ_le_succ counted⟩
  · rw [form_size isEmpty] at counted
    refine ⟨fun same => absurd same isEmpty, ?_, ?_⟩
    · rintro rfl rfl
      rw [length_nil] at counted
      omega
    · cases gap with
      | none =>
        change 0 + mid.length + last.size ≤ 8
        omega
      | some front =>
        change front.length + mid.length + last.size ≤ 8
        omega

theorem counted_of_read (some_ : last ≠ .empty) (isRead : readBytes gap mid last = some value) :
    (formOf gap mid last).Counted := by
  unfold Form.Counted
  rw [form_front, form_size some_]
  cases gap with
  | none =>
    rw [readBytes] at isRead
    by_contra notEight
    rw [if_neg notEight] at isRead
    cases isRead
  | some front =>
    rw [readBytes] at isRead
    by_contra notFew
    rw [if_neg (by rw [Nat.add_assoc]; exact notFew)] at isRead
    cases isRead

theorem counted_of_read_empty (isRead : readBytes (some front) mid .empty = some value) :
    front.length + mid.length ≤ 6 := by
  rw [readBytes] at isRead
  by_contra notFew
  have refused : ¬front.length + mid.length + Last.empty.size ≤ 7 := fun few =>
    notFew (Nat.le_of_succ_le_succ few)
  rw [if_neg refused] at isRead
  cases isRead

theorem not_closing_of_groups (some_ : form.groups ≠ [] ∨ form.octets ≠ none) : ¬form.Closing := by
  rintro ⟨_, -, -, noGroups, noOctets⟩
  exact some_.elim (absurd noGroups) (absurd noOctets)

theorem form_not_closing (some_ : last ≠ .empty) : ¬(formOf gap mid last).Closing := by
  refine not_closing_of_groups ?_
  cases last with
  | empty => cases some_ rfl
  | group digits => exact .inl (append_ne_nil_of_right_ne_nil _ (cons_ne_nil _ _))
  | dotted octets => exact .inr (some_ne_none octets)

theorem addr_of_form (made : form.Made Tolerable) (counted : form.Counted) (open_ : ¬form.Closing) :
    ngxInet6Addr form.text = some form.bytes := by
  obtain ⟨mid, last, isForm, ends⟩ := form_cut form
  rw [isForm] at made counted open_ ⊢
  obtain ⟨areGroups, fine⟩ := (form_made ends).1 made
  obtain ⟨hasGap, hasMid, enough⟩ := counted_facts ends counted
  rw [read_form areGroups fine ends hasGap enough hasMid, form_bytes ends counted hasGap open_]

theorem text_head {end_ : List Bytes → Prop} (made : form.Made end_) (counted : form.Counted)
    (notGap : form.front ≠ some []) : form.text.head? ≠ some colon := by
  obtain ⟨mid, last, isForm, ends⟩ := form_cut form
  rw [isForm] at made counted ⊢
  obtain ⟨areGroups, -⟩ := (form_made ends).1 made
  obtain ⟨hasGap, hasMid, -⟩ := counted_facts ends counted
  rw [form_text ends hasGap, if_neg notGap]
  refine read_text_head areGroups ?_
  cases isGap : form.front with
  | none => exact hasMid isGap
  | some front => exact fun isNil => notGap (by rw [isGap, isNil])

theorem addr_of_led_form (made : form.Made Tolerable) (counted : form.Counted) (open_ : ¬form.Closing)
    (notGap : form.front ≠ some []) : ngxInet6Addr (colon :: form.text) = some form.bytes := by
  rw [← addr_of_form made counted open_, addr_plain (text_head made counted notGap), addr_colon]

theorem address_front (isAddr : IsAddress (colon :: text) value) : text.head? = some colon := by
  obtain ⟨form, isText, made, counted, -⟩ := isAddr
  by_cases atGap : form.front = some []
  · obtain ⟨mid, last, isForm, ends⟩ := form_cut form
    rw [isForm] at counted isText
    obtain ⟨hasGap, -, -⟩ := counted_facts ends counted
    rw [form_text ends hasGap, if_pos atGap, atGap] at isText
    injection isText with _ isText
    rw [← isText]
    rfl
  · have head := text_head made counted atGap
    rw [isText] at head
    cases head rfl

theorem form_text_empty (hasGap : gap = some front) :
    (formOf gap [] .empty).text = [colon].intercalate front ++ [colon] ++ [colon] := by
  subst hasGap
  change [colon].intercalate front ++ [colon, colon] ++ [] = _
  simp

theorem last_text_ne (ends : last.Ends Loose) (some_ : last ≠ .empty) : last.text ≠ [] := by
  cases last with
  | empty => cases some_ rfl
  | group digits => exact ends.1
  | dotted octets =>
    obtain ⟨o0, o1, o2, o3, rfl⟩ := four_octets ends.1
    obtain ⟨behind, isText⟩ := dotted_text o0 o1 o2 o3
    change Form.dotted _ ≠ []
    rw [isText]
    simp

theorem address_end (isAddr : IsAddress (text ++ [colon]) value) : ∃ before, text = before ++ [colon] := by
  obtain ⟨form, isText, made, counted, -⟩ := isAddr
  obtain ⟨mid, last, isForm, ends⟩ := form_cut form
  rw [isForm] at made counted isText
  obtain ⟨-, isDotted⟩ := (form_made ends).1 made
  have loose := Last.ends_imp loose_of_dotted isDotted
  obtain ⟨hasGap, hasMid, -⟩ := counted_facts ends counted
  by_cases isEmpty : last = .empty
  · obtain rfl := ends isEmpty
    subst isEmpty
    obtain ⟨front, isGap⟩ := ne_none_iff_exists'.1 (hasGap rfl)
    rw [form_text_empty isGap] at isText
    exact ⟨_, (append_cancel_right isText).symm⟩
  · obtain ⟨path, isLast⟩ := form_text_last ends hasGap hasMid
    rw [isLast] at isText
    exact absurd (behind_last_colon isText (last_plain loose) not_mem_nil) (last_text_ne loose isEmpty)

theorem text_dotted (counted : form.Counted) (isEnd : form.octets = some octets) :
    ∃ path, form.text = path ++ colon :: Form.dotted octets := by
  obtain ⟨gap, groups, other⟩ := form
  obtain rfl : other = some octets := isEnd
  have ends : Last.dotted octets = .empty → groups = [] := nofun
  obtain ⟨hasGap, hasMid, -⟩ := @counted_facts groups (.dotted octets) gap ends counted
  exact form_text_last ends hasGap hasMid

theorem address_dotted (loose : Loose octets)
    (isAddr : IsAddress (before ++ colon :: Form.dotted octets) value) : IsDotted octets := by
  obtain ⟨form, isText, made, counted, -⟩ := isAddr
  obtain ⟨mid, last, isForm, ends⟩ := form_cut form
  rw [isForm] at made counted isText
  obtain ⟨-, isDotted⟩ := (form_made ends).1 made
  have lastLoose := Last.ends_imp loose_of_dotted isDotted
  obtain ⟨hasGap, hasMid, -⟩ := counted_facts ends counted
  obtain ⟨other, isLast⟩ := form_text_last ends hasGap hasMid
  rw [isLast] at isText
  have same := behind_last_colon isText (last_plain lastLoose) (dotted_plain loose.2)
  rw [last_dotted lastLoose loose same] at isDotted
  exact isDotted

theorem accepted_dotted (loose : Loose octets)
    (accepted : ngxInet6Addr (before ++ colon :: Form.dotted octets) = some value) : Tolerable octets := by
  obtain ⟨rest, isRest, isRead⟩ : ∃ rest, (before ++ colon :: Form.dotted octets = rest ∨
      before ++ colon :: Form.dotted octets = colon :: rest) ∧
      (inet6Loop {} rest).bind inet6Finish = some value := by
    by_cases head : (before ++ colon :: Form.dotted octets).head? = some colon
    · obtain ⟨rest, isRest⟩ := head?_eq_some_iff.1 head
      rw [isRest, addr_colon] at accepted
      exact ⟨rest, .inr isRest, accepted⟩
    · rw [addr_plain head] at accepted
      exact ⟨_, .inl rfl, accepted⟩
  obtain ⟨gap, mid, last, rfl, -, fine, -, hasMid, -⟩ := reading_cut isRead
  have lastLoose := Last.ends_imp loose_of_tolerable fine
  obtain ⟨path, isLast⟩ := @read_text_last mid last gap hasMid
  obtain ⟨other, isText⟩ : ∃ other, before ++ colon :: Form.dotted octets = other ++ colon :: last.text := by
    obtain same | same := isRest
    · exact ⟨path, same.trans isLast⟩
    · exact ⟨colon :: path, same.trans (congrArg (colon :: ·) isLast)⟩
  have same := behind_last_colon isText (dotted_plain loose.2) (last_plain lastLoose)
  rw [last_dotted lastLoose loose same.symm] at fine
  exact fine

theorem trailing_text (some_ : mid ≠ []) : (⟨some front, mid, none⟩ : Form).text ++ [colon] =
    if front = [] then colon :: readText (some front) mid .empty else readText (some front) mid .empty := by
  have isText : (⟨some front, mid, none⟩ : Form).text ++ [colon] =
      [colon].intercalate front ++ [colon] ++ colon :: ended mid := by
    rw [← join_colon some_]
    change [colon].intercalate front ++ [colon, colon] ++ [colon].intercalate (mid ++ []) ++ [colon] = _
    simp
  rw [isText, readText, Last.text, append_nil]
  by_cases noFront : front = []
  · subst noFront
    rfl
  · rw [if_neg noFront, join_colon noFront]

theorem address_of_accepted (accepted : ngxInet6Addr text = some value) (even_ : ¬Odd text) :
    IsAddress text value := by
  obtain ⟨rest, isRest, isRead⟩ : ∃ rest, (text = rest ∧ rest.head? ≠ some colon ∨ text = colon :: rest) ∧
      (inet6Loop {} rest).bind inet6Finish = some value := by
    by_cases head : text.head? = some colon
    · obtain ⟨rest, rfl⟩ := head?_eq_some_iff.1 head
      exact ⟨rest, .inr rfl, (addr_colon rest).symm.trans accepted⟩
    · exact ⟨text, .inl ⟨rfl, head⟩, (addr_plain head).symm.trans accepted⟩
  obtain ⟨gap, mid, last, rfl, areGroups, fine, hasGap, hasMid, isBytes⟩ := reading_cut isRead
  by_cases ends : last = .empty → mid = []
  · have made := (@form_made mid last gap Tolerable ends).2 ⟨areGroups, fine⟩
    have counted : (formOf gap mid last).Counted := by
      by_cases isEmpty : last = .empty
      · obtain rfl := ends isEmpty
        subst isEmpty
        obtain ⟨front, rfl⟩ := ne_none_iff_exists'.1 (hasGap rfl)
        have few := counted_of_read_empty isBytes
        exact Nat.le_succ_of_le few
      · exact counted_of_read isEmpty isBytes
    have open_ : ¬(formOf gap mid last).Closing := by
      by_cases isEmpty : last = .empty
      · obtain rfl := ends isEmpty
        subst isEmpty
        obtain ⟨front, rfl⟩ := ne_none_iff_exists'.1 (hasGap rfl)
        have few := counted_of_read_empty isBytes
        rintro ⟨other, isFront, seven, -, -⟩
        injection isFront with isFront
        rw [← isFront] at seven
        omega
      · exact form_not_closing isEmpty
    have isText := form_text ends hasGap
    have whole : text = (formOf gap mid last).text := by
      obtain ⟨same, plain⟩ | same := isRest
      · rw [same, isText, if_neg]
        rintro rfl
        exact plain rfl
      · by_cases atGap : gap = some []
        · rw [same, isText, if_pos atGap]
        · rw [if_neg atGap] at isText
          rw [same, ← isText] at even_
          exact absurd (.leading _ made (by rw [form_front]; exact atGap) counted open_) even_
    rw [whole] at even_ ⊢
    refine ⟨_, rfl, ⟨made.1, fun octets isEnd => ?_⟩, counted, ?_⟩
    · by_contra other
      exact even_ (.octets _ made counted octets isEnd other)
    · exact Option.some.inj ((form_bytes ends counted hasGap open_).symm.trans isBytes)
  · obtain ⟨rfl, some_⟩ := Classical.not_imp.1 ends
    obtain ⟨front, rfl⟩ := ne_none_iff_exists'.1 (hasGap rfl)
    have isText := @trailing_text mid front some_
    have made : (⟨some front, mid, none⟩ : Form).Made Tolerable := ⟨areGroups, nofun⟩
    have few := counted_of_read_empty isBytes
    refine absurd ?_ even_
    obtain ⟨same, plain⟩ | same := isRest
    · have someFront : front ≠ [] := by
        rintro rfl
        exact plain rfl
      rw [if_neg someFront] at isText
      rw [same, ← isText]
      exact .trailing _ [] front made rfl some_ rfl few (.inl rfl)
    · by_cases noFront : front = []
      · rw [if_pos noFront] at isText
        rw [same, ← isText]
        exact .trailing _ [] front made rfl some_ rfl few (.inl rfl)
      · rw [if_neg noFront] at isText
        rw [same, ← isText]
        exact .trailing _ [colon] front made rfl some_ rfl few (.inr ⟨rfl, noFront⟩)

theorem tolerable_of_dotted (isDotted : IsDotted octets)
    (other : octetBytes octets ≠ [255, 255, 255, 255]) : Tolerable octets := by
  refine ⟨isDotted.1, (loose_of_dotted octets isDotted).2, ?_, other⟩
  intro first isFirst
  obtain ⟨some_, few, -⟩ := isDotted.2 first (mem_of_head? isFirst)
  exact ⟨some_, Nat.le_succ_of_le few⟩

theorem accepted_of_address (isAddr : IsAddress text value) (even_ : ¬Odd text) :
    ngxInet6Addr text = some value := by
  obtain ⟨form, rfl, made, counted, rfl⟩ := isAddr
  refine addr_of_form ⟨made.1, fun octets isEnd => ?_⟩ counted fun closing =>
    even_ (.closing form made closing)
  refine tolerable_of_dotted (made.2 octets isEnd) fun isNone => ?_
  exact even_ (.broadcast form made counted octets isEnd isNone)

theorem odd_differs (odd : Odd text) : ¬∀ value, ngxInet6Addr text = some value ↔ IsAddress text value := by
  intro agrees
  cases odd with
  | leading form made notGap counted open_ =>
    have isAddr := (agrees _).1 (addr_of_led_form made counted open_ notGap)
    exact text_head made counted notGap (address_front isAddr)
  | trailing form before front made isFront some_ noEnd few single =>
    obtain ⟨gap, mid, octets⟩ := form
    obtain rfl : gap = some front := isFront
    obtain rfl : octets = none := noEnd
    have areGroups : ∀ group ∈ front ++ mid, IsGroup group := made.1
    obtain ⟨value, isRead⟩ : ∃ value, readBytes (some front) mid .empty = some value :=
      ⟨_, if_pos (Nat.succ_le_succ (show front.length + mid.length ≤ 6 from few))⟩
    have reads := @read_text mid .empty (some front) areGroups trivial (fun _ => some_ne_none front)
      (Nat.succ_le_succ (Nat.le_succ_of_le few)) (nofun)
    rw [isRead] at reads
    have isText := @trailing_text mid front some_
    have accepted : ngxInet6Addr (before ++ (⟨some front, mid, none⟩ : Form).text ++ [colon]) =
        some value := by
      rw [append_assoc, isText]
      obtain rfl | ⟨rfl, someFront⟩ := single
      · by_cases noFront : front = []
        · rw [if_pos noFront]
          exact (addr_colon _).trans reads
        · rw [if_neg noFront]
          exact (addr_plain (@read_text_head mid .empty (some front) areGroups noFront)).trans reads
      · rw [if_neg someFront]
        exact (addr_colon _).trans reads
    obtain ⟨path, isEnd⟩ := address_end ((agrees _).1 accepted)
    obtain none_ | ⟨init, group, rfl⟩ := eq_nil_or_concat mid
    · exact some_ none_
    · rw [concat_eq_append] at isEnd areGroups
      have isGroup := areGroups group (mem_append_right _ (mem_append_right _ (mem_singleton_self group)))
      obtain ⟨other, isLast⟩ := @form_text_last init (.group group) (some front)
        (nofun) (fun _ => some_ne_none front) (nofun)
      change (⟨some front, init ++ [group], none⟩ : Form).text = _ at isLast
      rw [isLast, ← append_assoc] at isEnd
      exact isGroup.1 (behind_last_colon isEnd (@group_head group [] isGroup).2 not_mem_nil)
  | octets form made counted numbers isEnd other =>
    obtain ⟨path, isText⟩ := text_dotted counted isEnd
    have open_ : ¬form.Closing := not_closing_of_groups (.inr (by rw [isEnd]; exact some_ne_none numbers))
    have isAddr := (agrees _).1 (addr_of_form made counted open_)
    rw [isText] at isAddr
    exact other (address_dotted (loose_of_tolerable numbers (made.2 numbers isEnd)) isAddr)
  | broadcast form made counted numbers isEnd isNone =>
    obtain ⟨path, isText⟩ := text_dotted counted isEnd
    have accepted := (agrees _).2 ⟨form, rfl, made, counted, rfl⟩
    rw [isText] at accepted
    exact (accepted_dotted (loose_of_dotted numbers (made.2 numbers isEnd)) accepted).2.2.2 isNone
  | closing form made isClosing =>
    obtain ⟨front, isFront, seven, noGroups, noOctets⟩ := isClosing
    obtain ⟨gap, mid, octets⟩ := form
    obtain rfl : gap = some front := isFront
    obtain rfl : mid = [] := noGroups
    obtain rfl : octets = none := noOctets
    have counted : (⟨some front, [], none⟩ : Form).Counted := by
      change front.length + 0 ≤ 7
      omega
    have accepted := (agrees _).2 ⟨_, rfl, made, counted, rfl⟩
    have areGroups : ∀ group ∈ front ++ [], IsGroup group := made.1
    have reads := @read_form [] .empty (some front) areGroups trivial (fun _ => rfl)
      (fun _ => some_ne_none front) (by change front.length + 0 + 1 ≤ 8; omega) (nofun)
    have isNone : readBytes (some front) [] .empty = none :=
      if_neg (by change ¬front.length + 0 + 1 ≤ 7; omega)
    rw [isNone] at reads
    cases reads.symm.trans accepted

/-- The function accepts the addresses of the grammar, with their values, and nothing is
written behind the sixteenth byte. -/
def ReadsRight (text : Bytes) : Prop :=
  (∀ value, ngxInet6Addr text = some value ↔ IsAddress text value) ∧ inet6Written text ≤ 16

theorem reads_right_iff (text : Bytes) : ReadsRight text ↔ ¬Odd text := by
  constructor
  · exact fun right odd => odd_differs odd right.1
  · intro even_
    exact ⟨fun value => ⟨fun accepted => address_of_accepted accepted even_,
      fun isAddr => accepted_of_address isAddr even_⟩, written_le text⟩

/-- A text of each kind. The first three are accepted, the others are refused. -/
theorem odd_texts_misread :
    ((ngxInet6Addr (textBytes ":1:2:3:4:5:6:7:8")).isSome ∧ ¬ReadsRight (textBytes ":1:2:3:4:5:6:7:8")) ∧
      ((ngxInet6Addr (textBytes "1::2:")).isSome ∧ ¬ReadsRight (textBytes "1::2:")) ∧
      ((ngxInet6Addr (textBytes "::1..2.3")).isSome ∧ ¬ReadsRight (textBytes "::1..2.3")) ∧
      (ngxInet6Addr (textBytes "1:2:3:4:5:6:7::") = none ∧ ¬ReadsRight (textBytes "1:2:3:4:5:6:7::")) ∧
      ngxInet6Addr (textBytes "::255.255.255.255") = none ∧ ¬ReadsRight (textBytes "::255.255.255.255") := by
  have digits : ∀ row : List String, (∀ digit ∈ row, IsGroup (textBytes digit)) →
      ∀ group ∈ row.map textBytes, IsGroup group := by
    intro row areDigits group isGroup
    obtain ⟨digit, isDigit, rfl⟩ := mem_map.1 isGroup
    exact areDigits digit isDigit
  have misread : ∀ {text other}, Odd other → text = other → ¬ReadsRight text :=
    fun odd same right => odd_differs odd (same ▸ right).1
  refine ⟨⟨by decide +kernel, ?_⟩, ⟨by decide +kernel, ?_⟩, ⟨by decide +kernel, ?_⟩, ⟨by decide +kernel, ?_⟩,
    by decide +kernel, ?_⟩
  · refine misread (.leading ⟨none, ["1", "2", "3", "4", "5", "6", "7", "8"].map textBytes,
      none⟩ ?_ ?_ rfl ?_) (by decide +kernel)
    · exact ⟨digits _ (by decide +kernel), nofun⟩
    · exact nofun
    · rintro ⟨front, isFront, -⟩
      cases isFront
  · refine misread (.trailing ⟨some (["1"].map textBytes), ["2"].map textBytes, none⟩
      [] _ ?_ rfl (by decide) rfl
      (by decide) (.inl rfl)) (by decide +kernel)
    exact ⟨digits ["1", "2"] (by decide +kernel), nofun⟩
  · refine misread (.octets ⟨some [], [], some (["1", "", "2", "3"].map textBytes)⟩ ?_
      (show 0 + 2 ≤ 7 by decide) _ rfl (by decide +kernel)) (by decide +kernel)
    refine ⟨digits [] (by decide +kernel), fun octets isEnd => ?_⟩
    cases isEnd
    decide +kernel
  · refine misread (.closing ⟨some (["1", "2", "3", "4", "5", "6", "7"].map textBytes), [], none⟩ ?_
      ⟨_, rfl, rfl, rfl, rfl⟩)
      (by decide +kernel)
    refine ⟨?_, nofun⟩
    exact forall_mem_append.2 ⟨digits _ (by decide +kernel), nofun⟩
  · refine misread (.broadcast ⟨some [], [], some (["255", "255", "255", "255"].map textBytes)⟩ ?_
      (show 0 + 2 ≤ 7 by decide) _ rfl (by decide +kernel)) (by decide +kernel)
    refine ⟨digits [] (by decide +kernel), fun octets isEnd => ?_⟩
    cases isEnd
    decide +kernel

end ServerCore.NginxInet6Agreement
