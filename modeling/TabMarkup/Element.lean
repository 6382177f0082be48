/-!
# Elements

The names of HTML elements. A tag with another name compiles just as well, but a name outside
the table is likely a slip and is reported. Names with digits are left out, since a tag name is
made of letters.
-/

namespace TabMarkup.Element

/-- The names of elements, in lower case. -/
def names : List String := [
  "a", "abbr", "address", "area", "article", "aside", "audio",
  "b", "base", "bdi", "bdo", "blockquote", "body", "br", "button",
  "canvas", "caption", "cite", "code", "col", "colgroup",
  "data", "datalist", "dd", "del", "details", "dfn", "dialog", "div", "dl", "dt",
  "em", "embed",
  "fieldset", "figcaption", "figure", "footer", "form",
  "head", "header", "hgroup", "hr", "html",
  "i", "iframe", "img", "input", "ins",
  "kbd", "keygen",
  "label", "legend", "li", "link",
  "main", "map", "mark", "menu", "meta", "meter",
  "nav", "noscript",
  "object", "ol", "optgroup", "option", "output",
  "p", "param", "picture", "pre", "progress",
  "q",
  "rb", "rp", "rt", "rtc", "ruby",
  "s", "samp", "script", "search", "section", "select", "slot", "small", "source",
  "span", "strong", "style", "sub", "summary", "sup",
  "table", "tbody", "td", "template", "textarea", "tfoot", "th", "thead",
  "time", "title", "tr", "track",
  "u", "ul",
  "var", "video",
  "wbr"]

/-- Whether a name, in upper or lower case, is that of an element. -/
def isKnown (name : String) : Bool :=
  names.contains (String.ofList (name.toList.map Char.toLower))

end TabMarkup.Element
