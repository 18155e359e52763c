import OxiCloud.Contacts.Views

/-! # What comes back from a vCard

A value with a line feed never comes back, and what stands behind the line feed is a line of its own. Without
line feeds, what is read is compared with the contact field by field: a value that is written as it is loses the
spaces at its end, a name is cut at a semicolon, and an email address or a phone number is looked for behind the
first colon of its line, which may be one of its type. -/

namespace OxiCloud.Contacts

open Lib.Texts List Option
open Calendar (DateTime)

/-! ### What comes back, field by field -/

/-- A value that trimming leaves, and not empty. -/
def Bare (v : Text) : Prop := v ≠ [] ∧ strip v = v

instance (v : Text) : Decidable (Bare v) := inferInstanceAs (Decidable (_ ∧ _))

theorem map_trimEnd_eq_iff (o : Option Text) :
    o.map (trimEnd isSpace) = o ↔ ∀ v ∈ o, trimEnd isSpace v = v := by
  rcases o with _ | v <;> simp

/-- The names are cut at their first semicolons. -/
theorem exists_namesOf (last first : Text) : ∃ a b, namesOf (namesValue last first) = some (a, b) := by
  unfold namesOf namesValue
  rw [splitOn_append_cons_self]
  obtain ⟨a, as, ha⟩ := exists_cons_of_ne_nil (splitOn_ne_nil ';' last)
  obtain ⟨b, bs, hb⟩ := exists_cons_of_ne_nil (splitOn_ne_nil ';' (first ++ ";;;".toList))
  rw [ha, hb]
  rcases as with _ | ⟨a', as⟩
  · exact ⟨a, b, rfl⟩
  · exact ⟨a, a', rfl⟩

theorem namesOf_iff (last first : Text) :
    namesOf (namesValue last first) = some (last, first) ↔ ';' ∉ last ∧ ';' ∉ first := by
  constructor
  · intro h
    obtain ⟨hlast, hfirst⟩ := namesOf_eq_some h
    exact ⟨(of_mem_splitOn hlast).1, (of_mem_splitOn hfirst).1⟩
  · rintro ⟨hlast, hfirst⟩
    have hsplit : (namesValue last first).splitOn ';' = [last, first, [], [], []] := by
      have hend : (first ++ ";;;".toList).splitOn ';' = [first, [], [], []] := splitOn_append hfirst [';', ';']
      rw [namesValue, splitOn_append hlast, hend]
    rw [namesOf, hsplit]

theorem names_iff (last first : Option Text) :
    ((namesOf (namesValue (last.getD []) (first.getD []))).map Prod.fst = last ∧
      (namesOf (namesValue (last.getD []) (first.getD []))).map Prod.snd = first) ↔
      (last.isSome ∧ first.isSome) ∧ (∀ v ∈ last, ';' ∉ v) ∧ ∀ v ∈ first, ';' ∉ v := by
  constructor
  · rintro ⟨hlast, hfirst⟩
    obtain ⟨a, b, hab⟩ := exists_namesOf (last.getD []) (first.getD [])
    rw [hab] at hlast hfirst
    subst hlast hfirst
    obtain ⟨ha, hb⟩ := (namesOf_iff a b).mp hab
    exact ⟨⟨rfl, rfl⟩, fun v hv => Option.some.inj hv ▸ ha, fun v hv => Option.some.inj hv ▸ hb⟩
  · rintro ⟨⟨hl, hf⟩, hlast, hfirst⟩
    obtain ⟨a, rfl⟩ := isSome_iff_exists.mp hl
    obtain ⟨b, rfl⟩ := isSome_iff_exists.mp hf
    have hab := (namesOf_iff a b).mpr ⟨hlast a rfl, hfirst b rfl⟩
    rw [getD_some, getD_some, hab]
    exact ⟨rfl, rfl⟩

theorem servedNames_iff (last first : Option Text) :
    (((servedPair last first).bind fun n => namesOf (namesValue n.1 n.2)).map Prod.fst = last ∧
      ((servedPair last first).bind fun n => namesOf (namesValue n.1 n.2)).map Prod.snd = first) ↔
      last.isSome = first.isSome ∧ (∀ v ∈ last, ';' ∉ v) ∧ ∀ v ∈ first, ';' ∉ v := by
  rcases last with _ | last <;> rcases first with _ | first
  · simp [servedPair]
  · have h := names_iff none (some first)
    simpa [servedPair] using h
  · have h := names_iff (some last) none
    simpa [servedPair] using h
  · have h := names_iff (some last) (some first)
    simpa [servedPair] using h

/-! ### Values behind a type -/

section
variable {name param v : Text}

theorem afterColon_typedLine (hname : ':' ∉ name ++ ";TYPE=".toList) (hparam : ':' ∉ param) (value : Text) :
    afterColon (typedLine name param value) = value := by
  have hline : typedLine name param value = (name ++ ";TYPE=".toList ++ param) ++ ':' :: value := by
    rw [typedLine, append_assoc _ [':'] value]
    rfl
  have hkey : ':' ∉ name ++ ";TYPE=".toList ++ param := fun hc => (mem_append.mp hc).elim hname hparam
  rw [afterColon, hline, splitOnce_append hkey]
  rfl

/-- A parameter value that has a colon is quoted. -/
def Quoted (param : Text) : Prop := ':' ∈ param → ∃ q, param = q ++ ['"']

/-- Behind the colon of a quoted type stands the end of the quotes. -/
theorem afterColon_quoted (hname : ':' ∉ name ++ ";TYPE=".toList) (hquoted : Quoted param) (hparam : ':' ∈ param) (value : Text) :
    ∃ x, afterColon (typedLine name param value) = x ++ '"' :: ':' :: value := by
  obtain ⟨q, rfl⟩ := hquoted hparam
  have hq : ':' ∈ q := by simpa using hparam
  obtain ⟨a, b, rfl, ha⟩ := eq_append_cons_of_mem hq
  have hline : typedLine name (a ++ ':' :: b ++ ['"']) value =
      (name ++ ";TYPE=".toList ++ a) ++ ':' :: (b ++ '"' :: ':' :: value) := by
    simp [typedLine]
  have hkey : ':' ∉ name ++ ";TYPE=".toList ++ a := fun hc => (mem_append.mp hc).elim hname ha
  refine ⟨b, ?_⟩
  rw [afterColon, hline, splitOnce_append hkey]
  rfl

theorem strip_quoted (x : Text) :
    ∃ y, strip (x ++ '"' :: ':' :: trimEnd isSpace v) = y ++ '"' :: ':' :: trimEnd isSpace v := by
  obtain ⟨y, hy⟩ := strip_append_kept (z := '"') (by decide) x (':' :: trimEnd isSpace v)
  have hcolon : trimEnd isSpace (':' :: trimEnd isSpace v) = ':' :: trimEnd isSpace v := by
    have h := trimEnd_concat [] (trimEnd isSpace v) (c := ':') (by decide)
    have hidem : trimEnd isSpace (trimEnd isSpace v) = trimEnd isSpace v := rdropWhile_idempotent _ _
    rwa [hidem] at h
  rw [hcolon] at hy
  exact ⟨y, hy⟩

theorem strip_quoted_ne {x : Text} (hv : strip v = v) : strip (x ++ '"' :: ':' :: trimEnd isSpace v) ≠ v := by
  intro h
  obtain ⟨y, hy⟩ := strip_quoted (v := v) x
  rw [hy, trimEnd_of_strip hv] at h
  have hlen := congrArg List.length h
  simp only [length_append, length_cons] at hlen
  omega

theorem emailOf_iff (hname : ':' ∉ name ++ ";TYPE=".toList) (hquoted : Quoted param) :
    emailOf (typedLine name param (trimEnd isSpace v)) = some v ↔ ':' ∉ param ∧ Bare v := by
  rw [emailOf_eq_some]
  constructor
  · rintro ⟨hv, hne⟩
    have hbare : strip v = v := by rw [← hv, strip_strip]
    refine ⟨fun hparam => ?_, hne, hbare⟩
    obtain ⟨x, hx⟩ := afterColon_quoted hname hquoted hparam (trimEnd isSpace v)
    rw [hx] at hv
    exact strip_quoted_ne hbare hv
  · rintro ⟨hparam, hne, hbare⟩
    rw [afterColon_typedLine hname hparam, strip_trimEnd]
    exact ⟨hbare, hne⟩

theorem trimEnd_scheme {r : Text} (h : strip ("tel:".toList ++ r) = "tel:".toList ++ r) :
    trimEnd isSpace r = r := by
  rw [strip_tag (by decide) (by decide)] at h
  exact append_cancel_left h

theorem phoneOf_iff (hname : ':' ∉ name ++ ";TYPE=".toList) (hquoted : Quoted param) :
    phoneOf (typedLine name param (trimEnd isSpace v)) = some v ↔ ':' ∉ param ∧ Bare v ∧ ¬ "tel:".toList <+: v := by
  rw [phoneOf_eq_some]
  constructor
  · rintro ⟨hv, hne⟩
    by_cases hparam : ':' ∈ param
    · exfalso
      obtain ⟨x, hx⟩ := afterColon_quoted hname hquoted hparam (trimEnd isSpace v)
      have hstrip := strip_strip (x ++ '"' :: ':' :: trimEnd isSpace v)
      rw [hx] at hv
      rcases hcut : cutStart "tel:".toList (strip (x ++ '"' :: ':' :: trimEnd isSpace v)) with _ | r
      · rw [hcut, getD_none] at hv
        rw [hv] at hstrip
        exact strip_quoted_ne hstrip hv
      · rw [hcut, getD_some] at hv
        subst hv
        -- The scheme would have to end with the end of the quotes.
        obtain ⟨y, hy⟩ := strip_quoted (v := r) x
        have hscheme := cutStart_eq_some.mp hcut
        rw [hscheme] at hstrip
        rw [hy, trimEnd_scheme hstrip] at hscheme
        have hcancel : y ++ ['"', ':'] = ['t', 'e'] ++ ['l', ':'] := by
          have hends : (y ++ ['"', ':']) ++ r = (['t', 'e'] ++ ['l', ':']) ++ r := by simpa using hscheme
          exact append_cancel_right hends
        exact absurd (append_inj_right' hcancel rfl) (by decide)
    · rw [afterColon_typedLine hname hparam, strip_trimEnd] at hv
      rcases hcut : cutStart "tel:".toList (strip v) with _ | r
      · rw [hcut, getD_none] at hv
        refine ⟨hparam, ⟨hne, hv⟩, ?_⟩
        rintro ⟨r, hr⟩
        rw [hv, ← hr, cutStart_append] at hcut
        exact nomatch hcut
      · rw [hcut, getD_some] at hv
        subst hv
        have hle := (strip_sublist r).length_le
        rw [cutStart_eq_some.mp hcut, length_append] at hle
        exact absurd hle (by simp)
  · rintro ⟨hparam, ⟨hne, hbare⟩, hscheme⟩
    have hcut : cutStart "tel:".toList v = none := by
      rcases h : cutStart "tel:".toList v with _ | r
      · rfl
      · exact absurd ⟨r, (cutStart_eq_some.mp h).symm⟩ hscheme
    rw [afterColon_typedLine hname hparam, strip_trimEnd, hbare, hcut]
    exact ⟨rfl, hne⟩

/-- A component that is read: not there and empty, or a bare value without semicolons. -/
theorem addressField_getD {parts : List Text} {i : ℕ} {o : Option Text} (hpart : parts[i]? = some (o.getD []))
    (ho : ∀ v ∈ o, Bare v) : addressField parts i = o := by
  rw [addressField, hpart, bind_some]
  rcases o with _ | v
  · rfl
  · obtain ⟨hne, hbare⟩ := ho v rfl
    exact unlessEmpty_eq_some.mpr ⟨hbare, hne⟩

theorem addressOf_iff (hname : ':' ∉ name ++ ";TYPE=".toList) (hparam : ':' ∉ param) (a : Address) :
    addressOf (typedLine name param (trimEnd isSpace a.value)) = some a.fields ↔
      (∃ v, some v ∈ a.fields) ∧ ∀ v, some v ∈ a.fields → Bare v ∧ ';' ∉ v := by
  constructor
  · intro h
    obtain ⟨hsome, hpieces⟩ := addressOf_eq_some h
    refine ⟨hsome, fun v hv => ?_⟩
    obtain ⟨s, hs, rfl, hne⟩ := hpieces v hv
    exact ⟨⟨hne, strip_strip s⟩, fun hc => (of_mem_splitOn hs).1 (strip_subset s hc)⟩
  · rintro ⟨⟨w, hw⟩, hbare⟩
    have hvalues : ∀ o ∈ a.fields, ∀ v ∈ o, Bare v ∧ ';' ∉ v := by
      intro o ho v hv
      rw [mem_def.mp hv] at ho
      exact hbare v ho
    have hpiece : ∀ o ∈ a.fields, ';' ∉ o.getD [] := by
      intro o ho
      rcases o with _ | v
      · exact not_mem_nil
      · exact (hvalues _ ho v rfl).2
    have hcountry : trimEnd isSpace (a.country.getD []) = a.country.getD [] := by
      rcases hc : a.country with _ | v
      · rfl
      · exact trimEnd_of_strip (hvalues a.country (by simp [Address.fields]) v hc).1.2
    have htrim : trimEnd isSpace a.value = a.value := by
      unfold Address.value
      rw [trimEnd_concat _ _ (by decide), hcountry]
    have hsplit : a.value.splitOn ';' = [] :: [] :: a.fields.map fun o => o.getD [] := by
      rw [value_eq]
      refine splitOn_intercalate ';' (fun l hl => ?_) (cons_ne_nil _ _)
      rcases mem_cons.mp hl with rfl | hl
      · exact not_mem_nil
      rcases mem_cons.mp hl with rfl | hl
      · exact not_mem_nil
      obtain ⟨o, ho, rfl⟩ := List.mem_map.mp hl
      exact hpiece o ho
    have hfields : [2, 3, 4, 5, 6].map (addressField (a.value.splitOn ';')) = a.fields := by
      rw [hsplit]
      simp only [map_cons, map_nil, Address.fields]
      congr <;> exact addressField_getD rfl fun v hv => (hvalues _ (by simp [Address.fields]) v hv).1
    have hnot : ¬ a.fields.all Option.isNone = true := by
      rw [List.all_eq_true]
      exact fun hall => nomatch hall _ hw
    rw [addressOf, afterColon_typedLine hname hparam, htrim, hfields, if_neg hnot]

end

/-! ### Types -/

section
variable {upper : Char → Text}

theorem colon_mem_renderParamValue (v : Text) : ':' ∈ renderParamValue v ↔ ':' ∈ v := by
  have hencode : ':' ∈ encodeParamValue v ↔ ':' ∈ v := by
    rw [encodeParamValue, mem_flatMap]
    constructor
    · rintro ⟨x, hx, hc⟩
      split_ifs at hc with h₁ h₂ h₃ h₄
      · exact absurd hc (by decide)
      · exact absurd hc (by decide)
      · exact absurd hc (by decide)
      · exact absurd hc (by decide)
      · rwa [mem_singleton.mp hc]
    · exact fun hv => ⟨':', hv, by decide⟩
  unfold renderParamValue
  split_ifs
  · simpa using hencode
  · rfl

theorem quoted_renderParamValue (v : Text) : Quoted (renderParamValue v) := by
  intro hc
  rw [colon_mem_renderParamValue] at hc
  have hquote : v.any (fun c => c == ',' || c == ';' || c == ':') = true := List.any_eq_true.mpr ⟨':', hc, by decide⟩
  rw [renderParamValue, hquote, Bool.true_or, if_pos rfl]
  exact ⟨'"' :: encodeParamValue v, rfl⟩

theorem quoted_typeParam (upper : Char → Text) (type : Text) :
    Quoted (typeParam upper type) := quoted_renderParamValue _

theorem colon_mem_typeParam (hupper : ∀ x, ':' ∈ upper x ↔ x = ':') (type : Text) :
    ':' ∈ typeParam upper type ↔ ':' ∈ type := by
  rw [typeParam, colon_mem_renderParamValue, mem_flatMap]
  simp only [hupper]
  exact ⟨fun ⟨x, hx, heq⟩ => heq ▸ hx, fun h => ⟨':', h, rfl⟩⟩

theorem colon_not_mem_telType (type : Text) : ':' ∉ telType type := by
  unfold telType
  split_ifs <;> decide

end

/-! ### The round trip -/

/-- What has to hold of a contact for it to come back from a vCard. -/
structure Safe (c : Contact) : Prop where
  feedless : c.view.Feedless
  uid : trimEnd isSpace c.uid = c.uid
  fullName : ∀ v ∈ c.fullName, trimEnd isSpace v = v
  lastName : ∀ v ∈ c.lastName, ';' ∉ v
  firstName : ∀ v ∈ c.firstName, ';' ∉ v
  emails : ∀ e ∈ c.email, ':' ∉ e.type ∧ Bare e.email
  phones : ∀ p ∈ c.phone, Bare p.number ∧ ¬ "tel:".toList <+: p.number
  addresses : ∀ a ∈ c.address, (∃ v, some v ∈ a.fields) ∧ ∀ v, some v ∈ a.fields → Bare v ∧ ';' ∉ v
  organization : ∀ v ∈ c.organization, trimEnd isSpace v = v
  title : ∀ v ∈ c.title, trimEnd isSpace v = v
  notes : ∀ v ∈ c.notes, trimEnd isSpace v = v

theorem servedFullName_iff (c : Contact) :
    (some (servedFullName c)).map (trimEnd isSpace) = c.fullName ↔ c.fullName.isSome ∧ ∀ v ∈ c.fullName, trimEnd isSpace v = v := by
  rcases h : c.fullName with _ | v
  · simp
  · simp [servedFullName, h]

section
variable {upper : Char → Text} {c : Contact} (hupper : ∀ x, ':' ∈ upper x ↔ x = ':') (haddress : ∀ a ∈ c.address, ':' ∉ a.type)
include hupper haddress

/-- The view that is read, compared with the contact. -/
theorem readView_iff (fullName : Option Text) (names : Option (Text × Text)) (tel : Phone → Text)
    (htel : ∀ p, Quoted (tel p)) : readView upper fullName names tel c = c.view ↔
      (trimEnd isSpace c.uid = c.uid ∧ (∀ v ∈ c.organization, trimEnd isSpace v = v) ∧ (∀ v ∈ c.title, trimEnd isSpace v = v) ∧
        (∀ v ∈ c.notes, trimEnd isSpace v = v)) ∧
      fullName.map (trimEnd isSpace) = c.fullName ∧
      ((names.bind fun n => namesOf (namesValue n.1 n.2)).map Prod.fst = c.lastName ∧
        (names.bind fun n => namesOf (namesValue n.1 n.2)).map Prod.snd = c.firstName) ∧
      (∀ e ∈ c.email, ':' ∉ e.type ∧ Bare e.email) ∧
      (∀ p ∈ c.phone, ':' ∉ tel p ∧ Bare p.number ∧ ¬ "tel:".toList <+: p.number) ∧
      (∀ a ∈ c.address, (∃ v, some v ∈ a.fields) ∧ ∀ v, some v ∈ a.fields → Bare v ∧ ';' ∉ v) := by
  have hemail : ∀ e : Email, emailOf (readEmail upper e) = some e.email ↔ ':' ∉ e.type ∧ Bare e.email := fun e => by
    rw [readEmail, emailOf_iff (by decide) (quoted_typeParam upper e.type), colon_mem_typeParam hupper]
  have hphone : ∀ p : Phone, phoneOf (readPhone tel p) = some p.number ↔
      ':' ∉ tel p ∧ Bare p.number ∧ ¬ "tel:".toList <+: p.number := fun p => phoneOf_iff (by decide) (htel p)
  have haddr : ∀ a ∈ c.address, (addressOf (readAddress upper a) = some a.fields ↔
      (∃ v, some v ∈ a.fields) ∧ ∀ v, some v ∈ a.fields → Bare v ∧ ';' ∉ v) := fun a ha =>
    addressOf_iff (by decide) (fun hc => haddress a ha ((colon_mem_typeParam hupper _).mp hc)) a
  simp only [View.ext_iff, readView, Contact.view, filterMap_eq_map_iff_forall_eq_some, map_trimEnd_eq_iff, hemail, hphone]
  rw [forall₂_congr haddr]
  tauto

/-- **What comes back from a generated vCard.** -/
theorem generated_iff {fresh : Text} (hfresh : '\n' ∉ fresh) (now : DateTime) :
    (parseVcard fresh now (generateVcard upper c)).view = c.view ↔ Safe c ∧ c.lastName.isSome ∧ c.firstName.isSome := by
  have hread := readView_iff hupper haddress c.fullName (some (c.lastName.getD [], c.firstName.getD []))
    (fun p => telType p.type) fun p hc => absurd hc (colon_not_mem_telType _)
  simp only [bind_some, names_iff, map_trimEnd_eq_iff, colon_not_mem_telType, not_false_eq_true, true_and] at hread
  constructor
  · intro h
    have hfeed : c.view.Feedless := h ▸ feedless_parse hfresh now _
    rw [parse_generated upper c hfeed] at h
    obtain ⟨⟨huid, horg, htitle, hnotes⟩, hname, ⟨hsome, hlast, hfirst⟩, hemail, hphone, haddr⟩ := hread.mp h
    exact ⟨⟨hfeed, huid, hname, hlast, hfirst, hemail, hphone, haddr, horg, htitle, hnotes⟩, hsome⟩
  · rintro ⟨hs, hsome⟩
    rw [parse_generated upper c hs.feedless]
    exact hread.mpr ⟨⟨hs.uid, hs.organization, hs.title, hs.notes⟩, hs.fullName, ⟨hsome, hs.lastName, hs.firstName⟩, hs.emails,
      hs.phones, hs.addresses⟩

/-- **What comes back from a served vCard.** -/
theorem served_iff (hnick : ∀ v ∈ c.nickname, '\n' ∉ v) (hphoto : ∀ v ∈ c.photoUrl, '\n' ∉ v) {fresh : Text}
    (hfresh : '\n' ∉ fresh) (now : DateTime) :
    (parseVcard fresh now (contactToVcard upper c)).view = c.view ↔
      Safe c ∧ c.lastName.isSome = c.firstName.isSome ∧ c.fullName.isSome ∧ ∀ p ∈ c.phone, ':' ∉ p.type := by
  have hread := readView_iff hupper haddress (some (servedFullName c)) (servedPair c.lastName c.firstName)
    (fun p => typeParam upper p.type) fun p => quoted_typeParam upper p.type
  rw [servedNames_iff, servedFullName_iff] at hread
  simp only [colon_mem_typeParam hupper] at hread
  constructor
  · intro h
    have hfeed : c.view.Feedless := h ▸ feedless_parse hfresh now _
    rw [parse_served upper c hfeed hnick hphoto] at h
    obtain ⟨⟨huid, horg, htitle, hnotes⟩, ⟨hfull, hname⟩, ⟨hsome, hlast, hfirst⟩, hemail, hphone, haddr⟩ := hread.mp h
    exact ⟨⟨hfeed, huid, hname, hlast, hfirst, hemail, fun p hp => (hphone p hp).2, haddr, horg, htitle, hnotes⟩, hsome, hfull,
      fun p hp => (hphone p hp).1⟩
  · rintro ⟨hs, hsome, hfull, htype⟩
    rw [parse_served upper c hs.feedless hnick hphoto]
    exact hread.mpr ⟨⟨hs.uid, hs.organization, hs.title, hs.notes⟩, ⟨hfull, hs.fullName⟩, ⟨hsome, hs.lastName, hs.firstName⟩,
      hs.emails, fun p hp => ⟨htype p hp, hs.phones p hp⟩, hs.addresses⟩

end

/-! ### Two contacts -/

/-- Upper case of ASCII letters. -/
def asciiUpper (x : Char) : Text := [x.toUpper]

theorem colon_mem_asciiUpper (x : Char) : ':' ∈ asciiUpper x ↔ x = ':' := by
  rw [asciiUpper, mem_singleton]
  unfold Char.toUpper
  split_ifs with h
  · constructor
    · intro heq
      have hval : (58 : UInt32) = x.val + ('A'.val - 'a'.val) := congrArg Char.val heq
      obtain ⟨hlow, hhigh⟩ := h
      have h₁ : 97 ≤ x.val.toNat := UInt32.le_iff_toNat_le.mp hlow
      have h₂ : x.val.toNat ≤ 122 := UInt32.le_iff_toNat_le.mp hhigh
      have hnat := congrArg UInt32.toNat hval
      rw [UInt32.toNat_add] at hnat
      have h₃ : ('A'.val - 'a'.val : UInt32).toNat = 4294967264 := by decide
      have h₄ : (58 : UInt32).toNat = 58 := rfl
      omega
    · rintro rfl
      exact absurd h (by decide)
  · exact eq_comm

def noon : DateTime := ⟨2026, 7, 17, 12, 0, 0, 0, by decide, by decide⟩

/-- A contact with an address of each kind. -/
def sample : Contact where
  uid := "u@oxicloud".toList
  fullName := some "F L".toList
  firstName := some "F".toList
  lastName := some "L".toList
  email := [⟨"f@l".toList, "work".toList, true⟩]
  phone := [⟨"+15".toList, "mobile".toList, true⟩]
  address := [⟨some "s".toList, some "c".toList, none, none, some "k".toList, "home".toList, true⟩]
  title := some "t, u: v".toList
  updatedAt := noon

/-- A contact with a line feed in the title. -/
def injected : Contact := { sample with phone := [], title := some "t\nTEL:1".toList }

end OxiCloud.Contacts
