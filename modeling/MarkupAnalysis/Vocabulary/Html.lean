import MarkupAnalysis.Vocabulary.Dictionary

/-! # The vocabulary of HTML

The built-in declarations: the tags of HTML with their attributes, the attributes that every tag has,
the value sets they refer to, and which tags are void, embedded, or hold references.

* **`Html.dataSet`** — the declarations.
* **`Html.dictionary`**, **`Html.vocabulary`** — the declarations with their marks, their lookups. -/

namespace MarkupAnalysis.Html

/-! ## Ways to declare -/

/-- An attribute that takes any value. -/
def free (name : String) : AttributeDeclaration := { name := name.toList }

/-- An attribute that takes the values of a value set. -/
def ofSet (name valueSet : String) : AttributeDeclaration :=
  { name := name.toList, valueSet := some valueSet.toList }

/-- An attribute that is written without a value. -/
def flag (name : String) : AttributeDeclaration :=
  { name := name.toList, valueSet := some AttributeInfo.valuelessSet }

/-- An attribute that holds an event handler. -/
def handler (name : String) : AttributeDeclaration :=
  { name := name.toList, valueSet := some AttributeInfo.handlerSet }

/-- An attribute that takes one of the values listed with it. -/
def oneOf (name : String) (values : List String) : AttributeDeclaration :=
  { name := name.toList, values := values.map String.toList }

/-- A tag with attributes of its own. -/
def tag (name : String) (attributes : List AttributeDeclaration) : TagDeclaration :=
  { name := name.toList, attributes }

/-- A set of values. -/
def values (name : String) (values : List String) : ValueSet :=
  { name := name.toList, values := values.map String.toList }

/-! ## The declarations -/

/-- The tags of HTML. -/
def tags : List TagDeclaration :=
  [ tag "html" [free "manifest", free "version", free "xmlns"],
    tag "head" [free "profile"],
    tag "title" [],
    tag "base" [free "href", ofSet "target" "target"],
    tag "link"
      [free "href", ofSet "crossorigin" "xo", free "rel", free "media", free "hreflang", free "type",
      free "sizes", free "as"],
    tag "meta" [free "name", free "http-equiv", free "content", free "charset"],
    tag "style" [free "media", free "nonce", free "type"],
    tag "body"
      [handler "onafterprint", handler "onbeforeprint", handler "onload", handler "onunload",
      free "background"],
    tag "article" [],
    tag "section" [],
    tag "nav" [],
    tag "aside" [],
    tag "h1" [],
    tag "h2" [],
    tag "h3" [],
    tag "h4" [],
    tag "h5" [],
    tag "h6" [],
    tag "header" [],
    tag "footer" [],
    tag "address" [],
    tag "p" [],
    tag "hr" [],
    tag "pre" [],
    tag "blockquote" [free "cite"],
    tag "ol" [flag "reversed", free "start", ofSet "type" "lt"],
    tag "ul" [],
    tag "li" [free "value"],
    tag "dl" [],
    tag "dt" [],
    tag "dd" [],
    tag "figure" [],
    tag "figcaption" [],
    tag "main" [],
    tag "div" [],
    tag "a"
      [free "href", ofSet "target" "target", free "download", free "ping", free "rel", free "hreflang",
      free "type"],
    tag "em" [],
    tag "strong" [],
    tag "small" [],
    tag "s" [],
    tag "cite" [],
    tag "q" [free "cite"],
    tag "code" [],
    tag "sub" [],
    tag "sup" [],
    tag "i" [],
    tag "b" [],
    tag "u" [],
    tag "mark" [],
    tag "span" [],
    tag "br" [],
    tag "wbr" [],
    tag "ins" [free "cite", free "datetime"],
    tag "del" [free "cite", free "datetime"],
    tag "picture" [],
    tag "img"
      [free "alt", free "src", free "srcset", ofSet "crossorigin" "xo", free "usemap", flag "ismap",
      free "width", free "height", oneOf "decoding" ["sync", "async", "auto"],
      oneOf "loading" ["eager", "lazy"]],
    tag "iframe"
      [free "src", free "srcdoc", free "name", ofSet "sandbox" "sb", free "allow",
      flag "allowfullscreen", free "width", free "height"],
    tag "embed" [free "src", free "type", free "width", free "height"],
    tag "object" [free "data", free "type", free "name", free "form", free "width", free "height"],
    tag "param" [free "name", free "value"],
    tag "video"
      [free "src", ofSet "crossorigin" "xo", free "poster", ofSet "preload" "pl", flag "autoplay",
      flag "loop", flag "muted", flag "controls", free "width", free "height"],
    tag "audio"
      [free "src", ofSet "crossorigin" "xo", ofSet "preload" "pl", flag "autoplay", flag "loop",
      flag "muted", flag "controls"],
    tag "source" [free "src", free "type", free "srcset", free "sizes", free "media"],
    tag "track" [flag "default", ofSet "kind" "tk", free "label", free "src", free "srclang"],
    tag "map" [free "name"],
    tag "area"
      [free "alt", free "coords", ofSet "shape" "sh", free "href", ofSet "target" "target",
      free "download", free "rel"],
    tag "table" [],
    tag "caption" [],
    tag "colgroup" [free "span"],
    tag "col" [free "span"],
    tag "tbody" [],
    tag "thead" [],
    tag "tfoot" [],
    tag "tr" [],
    tag "td" [free "colspan", free "rowspan", free "headers"],
    tag "th" [free "colspan", free "rowspan", free "headers", ofSet "scope" "s", free "abbr"],
    tag "form"
      [free "accept-charset", free "action", ofSet "autocomplete" "o", ofSet "enctype" "et",
      ofSet "method" "m", free "name", flag "novalidate", ofSet "target" "target"],
    tag "label" [free "form", free "for"],
    tag "input"
      [free "accept", free "alt", ofSet "autocomplete" "inputautocomplete", flag "autofocus",
      flag "checked", free "dirname", flag "disabled", free "form", free "formaction",
      ofSet "formenctype" "et", ofSet "formmethod" "fm", flag "formnovalidate", free "formtarget",
      free "height", free "list", free "max", free "maxlength", free "min", free "minlength",
      flag "multiple", free "name", free "pattern", free "placeholder", flag "readonly",
      flag "required", free "size", free "src", free "step", ofSet "type" "t", free "value",
      free "width"],
    tag "button"
      [flag "autofocus", flag "disabled", free "form", free "formaction", ofSet "formenctype" "et",
      ofSet "formmethod" "fm", flag "formnovalidate", free "formtarget", free "name", ofSet "type" "bt",
      free "value"],
    tag "select"
      [ofSet "autocomplete" "inputautocomplete", flag "autofocus", flag "disabled", free "form",
      flag "multiple", free "name", flag "required", free "size"],
    tag "datalist" [],
    tag "optgroup" [flag "disabled", free "label"],
    tag "option" [flag "disabled", free "label", flag "selected", free "value"],
    tag "textarea"
      [ofSet "autocomplete" "inputautocomplete", flag "autofocus", free "cols", free "dirname",
      flag "disabled", free "form", free "maxlength", free "minlength", free "name", free "placeholder",
      flag "readonly", flag "required", free "rows", ofSet "wrap" "w"],
    tag "output" [free "for", free "form", free "name"],
    tag "progress" [free "value", free "max"],
    tag "meter" [free "value", free "min", free "max", free "low", free "high", free "optimum"],
    tag "fieldset" [flag "disabled", free "form", free "name"],
    tag "legend" [],
    tag "details" [flag "open"],
    tag "summary" [],
    tag "dialog" [flag "open"],
    tag "script"
      [free "src", free "type", free "charset", flag "async", flag "defer", ofSet "crossorigin" "xo",
      free "nonce", free "integrity", flag "nomodule", free "referrerpolicy"],
    tag "noscript" [],
    tag "template" [],
    tag "slot" [free "name"],
    tag "canvas" [free "width", free "height"] ]

/-- The attributes that every tag has. -/
def globalAttributes : List AttributeDeclaration :=
  [ free "accesskey", oneOf "autocapitalize" ["off", "none", "on", "sentences", "words", "characters"],
    free "class", ofSet "contenteditable" "b", ofSet "dir" "d", ofSet "draggable" "b", flag "hidden",
    free "id", flag "inert", ofSet "inputmode" "im", free "is", free "lang", free "slot",
    ofSet "spellcheck" "b", free "style", free "tabindex", free "title", ofSet "translate" "y",
    ofSet "role" "roles", handler "onblur", handler "onchange", handler "onclick", handler "ondblclick",
    handler "onfocus", handler "oninput", handler "onkeydown", handler "onkeyup", handler "onload",
    handler "onmousedown", handler "onmouseup", handler "onsubmit" ]

/-- The value sets that the attributes refer to. -/
def valueSets : List ValueSet :=
  [ values "b" ["true", "false"],
    values "u" ["true", "false", "undefined"],
    values "o" ["on", "off"],
    values "y" ["yes", "no"],
    values "w" ["soft", "hard"],
    values "d" ["ltr", "rtl", "auto"],
    values "m" ["get", "post", "dialog"],
    values "fm" ["get", "post", "dialog"],
    values "s" ["row", "col", "rowgroup", "colgroup"],
    values "t"
      ["hidden", "text", "search", "tel", "url", "email", "password", "datetime", "date", "month",
      "week", "time", "datetime-local", "number", "range", "color", "checkbox", "radio", "file",
      "submit", "image", "reset", "button"],
    values "im"
      ["verbatim", "latin", "latin-name", "latin-prose", "full-width-latin", "kana", "kana-name",
      "katakana", "numeric", "tel", "email", "url"],
    values "bt" ["button", "submit", "reset", "menu"],
    values "lt" ["1", "a", "A", "i", "I"],
    values "et" ["application/x-www-form-urlencoded", "multipart/form-data", "text/plain"],
    values "tk" ["subtitles", "captions", "descriptions", "chapters", "metadata"],
    values "pl" ["none", "metadata", "auto", ""],
    values "sh" ["circle", "default", "poly", "rect"],
    values "xo" ["anonymous", "use-credentials"],
    values "sb"
      ["allow-forms", "allow-modals", "allow-pointer-lock", "allow-popups",
      "allow-popups-to-escape-sandbox", "allow-same-origin", "allow-scripts", "allow-top-navigation"],
    values "target" ["_blank", "_parent", "_self", "_top"],
    values "inputautocomplete"
      ["on", "off", "name", "email", "username", "new-password", "current-password", "organization",
      "street-address", "country", "postal-code", "tel", "url"],
    values "roles"
      ["alert", "button", "checkbox", "dialog", "grid", "link", "listbox", "menu", "menuitem",
      "navigation", "progressbar", "radio", "region", "search", "tab", "tabpanel", "textbox", "tooltip",
      "tree"],
    values "v" [],
    values "handler" [] ]

/-- The declarations of HTML. -/
def dataSet : DataSet := { version := some 1.1, tags, globalAttributes, valueSets }

/-! ## The marks -/

/-- The tags that have neither children nor an end tag. -/
def voidTags : List String :=
  ["area", "base", "br", "col", "embed", "hr", "img", "input", "keygen", "link", "menuitem", "meta",
    "param", "source", "track", "wbr"]

/-- The tags whose content is opaque. -/
def embeddedTags : List String := ["script", "style"]

/-- The attributes that locate another resource, besides `src` and `href`. -/
def references : List (String × String) :=
  [("body", "background"), ("blockquote", "cite"), ("del", "cite"), ("form", "action"),
    ("frame", "longdesc"), ("img", "longdesc"), ("ins", "cite"), ("object", "data"), ("q", "cite"),
    ("button", "formaction"), ("command", "icon"), ("html", "manifest"), ("input", "formaction"),
    ("video", "poster")]

/-- The dictionary of HTML. -/
def dictionary : Dictionary :=
  (((Dictionary.ofDataSet dataSet).markVoid (voidTags.map String.toList)).markEmbedded
    (embeddedTags.map String.toList)).markReferences
    (references.map fun (tag, name) => (tag.toList, name.toList))

/-- The vocabulary of HTML. -/
def vocabulary : Vocabulary := dictionary.toVocabulary

end MarkupAnalysis.Html
